/-
The three paths of one decryption, however the encrypted file's path is written: with repeated slashes, dots, no text, a
slash at the end. A path is accepted for the name of its last component alone (`companions_eq_ok`), and the output takes
that name's place without the extension, so the extension brings the components back (`Named.components_output`).

Results:
- `companions_undone`: which paths are accepted, what is derived from them, and how they are got back from the output.
- `companions_siblings`: the key and the output stand beside the file, with two things to know about how a path is
  written. The key's suffix is appended to the whole text, so after a slash at the end the key is inside
  (`companions_aside`); and a dot or two are not a name.
-/
import Mathlib.Tactic
import CbcFile.Proofs.Path.Components
import CbcFile.Proofs.Run

open CbcFile.Path (slash dot dotDot components)

namespace CbcFile

variable {p : Path} {stem : Bytes} {paths : Companions}

/-! ## Accepted paths -/

theorem companions_eq_ok :
    companions p = .ok paths ↔ ∃ stem, Named p stem ∧ paths = ⟨p, keyPath p, p.withFileName stem⟩ := by
  constructor
  · intro h
    by_cases hnamed : ∃ stem, Named p stem
    · obtain ⟨stem, hstem⟩ := hnamed
      rw [companions_named hstem] at h
      exact ⟨stem, hstem, (Except.ok.inj h).symm⟩
    · rw [companions_unnamed (not_exists.1 hnamed)] at h
      cases h
  · rintro ⟨stem, hstem, rfl⟩
    exact companions_named hstem

/-- **An accepted path** has a last name that is longer than the extension it ends in -/
theorem exists_named : (∃ stem, Named p stem) ↔ ∃ name, p.LastName name ∧ extension <:+ name ∧ 4 < name.length := by
  constructor
  · rintro ⟨stem, hne, hlast⟩
    refine ⟨stem ++ extension, Path.getLast?_components.1 hlast, List.suffix_append stem extension, ?_⟩
    rw [List.length_append, show extension.length = 4 from rfl]
    exact Nat.lt_add_of_pos_left (List.length_pos_of_ne_nil hne)
  · rintro ⟨name, hlast, ⟨stem, rfl⟩, hlen⟩
    refine ⟨stem, ?_, Path.getLast?_components.2 hlast⟩
    rintro rfl
    exact absurd hlen (by decide)

namespace Named

theorem lastName (h : Named p stem) : p.LastName (stem ++ extension) :=
  Path.getLast?_components.1 h.2

theorem slash_not_mem (h : Named p stem) : slash ∉ stem := by
  obtain ⟨front, rest, hs, -⟩ := h.lastName
  have hname : slash ∉ stem ++ extension := Path.slash_not_mem (by rw [hs]; simp)
  exact fun hc => hname (List.mem_append_left extension hc)

theorem components_eq (h : Named p stem) : p.components.dropLast ++ [.name (stem ++ extension)] = p.components :=
  List.dropLast_append_getLast? _ h.2

/-- **The extension undoes the derivation** up to the way the path is written -/
theorem components_output (h : Named p stem) :
    (⟨(p.withFileName stem).bytes ++ extension⟩ : Path).components = p.components := by
  obtain ⟨-, -, -, -, hname⟩ := h.lastName
  rw [Path.components_withFileName h.2 h.slash_not_mem (by decide) hname, h.components_eq]

end Named

/-- **Accepted paths and how to get them back.** A path is accepted if and only if its last name carries the extension. The
output with the extension has the components of the path, and is the path itself if nothing is skipped around its last
name; so two paths with the same output have the same components. -/
theorem companions_undone (p : Path) :
    ((∃ paths, companions p = .ok paths) ↔ ∃ name, p.LastName name ∧ extension <:+ name ∧ 4 < name.length) ∧
    ((¬ ∃ paths, companions p = .ok paths) → companions p = .error (.badExtension p)) ∧
    ∀ paths, companions p = .ok paths →
      paths.encrypted = p ∧ paths.key.bytes = p.bytes ++ keySuffix ∧
      (⟨paths.output.bytes ++ extension⟩ : Path).components = p.components ∧
      (¬ p.EndsSilent → ∀ name, p.LastName name → ∃ before, p.bytes = before ++ name ∧
        (p.Adjoins before → paths.output.bytes ++ extension = p.bytes)) ∧
      ∀ other others, companions other = .ok others → others.output.bytes = paths.output.bytes →
        other.components = p.components := by
  have haccepted : (∃ paths, companions p = .ok paths) ↔ ∃ stem, Named p stem := by
    constructor
    · rintro ⟨paths, h⟩
      obtain ⟨stem, hstem, -⟩ := companions_eq_ok.1 h
      exact ⟨stem, hstem⟩
    · rintro ⟨stem, hstem⟩
      exact ⟨_, companions_named hstem⟩
  refine ⟨haccepted.trans exists_named, fun h => ?_, fun paths h => ?_⟩
  · rw [haccepted] at h
    exact companions_unnamed (not_exists.1 h)
  obtain ⟨stem, hstem, rfl⟩ := companions_eq_ok.1 h
  refine ⟨rfl, rfl, hstem.components_output, fun hend name hname => ?_, fun other others ho heq => ?_⟩
  · obtain ⟨before, hbefore⟩ := hname.exists_before hend
    refine ⟨before, hbefore, fun hadjoins => ?_⟩
    have hlast := Path.getLast?_components.2 hname
    obtain rfl : stem ++ extension = name := by
      rw [hstem.2] at hlast
      exact Path.Component.name.inj (Option.some.inj hlast)
    rw [Path.bytes_withFileName hlast hbefore hadjoins (List.prefix_append stem extension), List.append_assoc, hbefore]
  · obtain ⟨otherStem, hother, rfl⟩ := companions_eq_ok.1 ho
    rw [← hother.components_output, ← hstem.components_output]
    exact congrArg (fun text : Bytes => (⟨text ++ extension⟩ : Path).components) heq

/-! ## Siblings -/

/-- a path with this file name and with the parent components of another path -/
def Path.Sibling (path other : Path) (name : Bytes) : Prop :=
  path.fileName? = some name ∧ path.parent?.map components = other.parent?.map components

theorem fileName?_of_components {path : Path} {above : List Path.Component} {name : Bytes}
    (h : path.components = above ++ [.name name]) :
    path.fileName? = some name ∧ path.parent?.map components = some above := by
  have hlast : path.components.getLast? = some (.name name) := by rw [h, List.getLast?_concat]
  exact ⟨fileName?_eq_some.2 hlast, by rw [Path.components_parent hlast, h, List.dropLast_concat]⟩

theorem Named.sibling (h : Named p stem) {path : Path} {name : Bytes}
    (hpath : path.components = p.components.dropLast ++ [.name name]) : path.Sibling p name := by
  obtain ⟨hname, hparent⟩ := fileName?_of_components hpath
  exact ⟨hname, hparent.trans (Path.components_parent h.2).symm⟩

theorem suffix_isName (name : Bytes) :
    name ++ keySuffix ≠ [] ∧ name ++ keySuffix ≠ dot ∧ name ++ keySuffix ≠ dotDot :=
  ⟨by simp [keySuffix, ascii], Path.append_ne_dot name (by decide), Path.append_ne_dotDot name (by decide)⟩

/-- **The key and the output are beside the file**: the key if nothing follows the file's name, the output if the stem is
a name. After a slash at the end, or a slash and a dot, the key is a name below the file's. -/
theorem companions_siblings (h : companions p = .ok paths) :
    ∃ stem, p.fileName? = some (stem ++ extension) ∧ paths.key.bytes = p.bytes ++ keySuffix ∧
      (¬ p.EndsSilent → paths.key.Sibling p (stem ++ extension ++ keySuffix)) ∧
      ([slash] <:+ p.bytes →
        paths.key.fileName? = some keySuffix ∧ paths.key.parent?.map components = some p.components) ∧
      (slash :: dot <:+ p.bytes →
        paths.key.fileName? = some (dot ++ keySuffix) ∧ paths.key.parent?.map components = some p.components) ∧
      (stem ≠ dot → stem ≠ dotDot → paths.output.Sibling p stem) := by
  obtain ⟨stem, hstem, rfl⟩ := companions_eq_ok.1 h
  refine ⟨stem, fileName?_eq_some.2 hstem.2, rfl, fun hend => ?_, ?_, ?_, fun hdot hup => ?_⟩
  · exact hstem.sibling (Path.components_suffix hstem.lastName hend (by decide) (suffix_isName _))
  · rintro ⟨text, htext⟩
    exact fileName?_of_components
      (Path.components_suffix_of_ends htext.symm (Or.inl rfl) (by decide) (suffix_isName []))
  · rintro ⟨text, htext⟩
    exact fileName?_of_components
      (Path.components_suffix_of_ends htext.symm (Or.inr rfl) (by decide) (suffix_isName dot))
  · have hnew : stem ++ [] ≠ [] ∧ stem ++ [] ≠ dot ∧ stem ++ [] ≠ dotDot := by
      rw [List.append_nil]
      exact ⟨hstem.1, hdot, hup⟩
    have houtput := Path.components_withFileName hstem.2 hstem.slash_not_mem (by simp : slash ∉ []) hnew
    rw [List.append_nil, List.append_nil] at houtput
    exact hstem.sibling houtput

/-- a path as it may be written: a dot at the start, a slash too many, a dot between, a name that is no text -/
def crookedFile : Path :=
  ⟨ascii ['.', '/', 'd', '/', '/', '.', '/', 'r'] ++ [0xFF] ++ extension⟩

theorem companions_siblings_crooked :
    ∃ paths, companions crookedFile = .ok paths ∧
      paths.output.bytes = ascii ['.', '/', 'd', '/', 'r'] ++ [0xFF] ∧
      ∃ stem, crookedFile.fileName? = some (stem ++ extension) ∧ paths.key.bytes = crookedFile.bytes ++ keySuffix ∧
        (¬ crookedFile.EndsSilent → paths.key.Sibling crookedFile (stem ++ extension ++ keySuffix)) ∧
        ([slash] <:+ crookedFile.bytes →
          paths.key.fileName? = some keySuffix ∧ paths.key.parent?.map components = some crookedFile.components) ∧
        (slash :: dot <:+ crookedFile.bytes →
          paths.key.fileName? = some (dot ++ keySuffix) ∧
            paths.key.parent?.map components = some crookedFile.components) ∧
        (stem ≠ dot → stem ≠ dotDot → paths.output.Sibling crookedFile stem) :=
  ⟨⟨crookedFile, keyPath crookedFile, ⟨ascii ['.', '/', 'd', '/', 'r'] ++ [0xFF]⟩⟩, rfl, rfl,
    companions_siblings (p := crookedFile) rfl⟩

/-- **Not always siblings**: the key of a path that ends in a slash has the file's own name among its parent components;
and of three dots and the extension two dots are left, which lead to the directory above and are no file name -/
theorem companions_aside :
    (∃ paths, companions ⟨ascii ['x', '.', 'a', 'e', 's', '/']⟩ = .ok paths ∧
      paths.encrypted.fileName? = some (ascii ['x', '.', 'a', 'e', 's']) ∧
      paths.encrypted.parent?.map components = some [] ∧
      paths.key.fileName? = some (ascii ['.', 'k', 'e', 'y']) ∧
      paths.key.parent?.map components = some [.name (ascii ['x', '.', 'a', 'e', 's'])]) ∧
    ∃ paths, companions ⟨ascii ['.', '.', '.', 'a', 'e', 's']⟩ = .ok paths ∧
      paths.output.components = [.up] ∧ paths.output.fileName? = none :=
  ⟨⟨_, rfl, by decide, by decide, by decide, by decide⟩, ⟨_, rfl, by decide, by decide⟩⟩

end CbcFile
