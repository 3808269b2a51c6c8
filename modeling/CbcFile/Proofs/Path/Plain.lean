/-
Plain paths: relative, made of ordinary names with a single slash between two of them. Such a path is its names and
nothing more (`Plain.splitSlash_eq`), so it can be told from them (`Plain.eq_of_segments`), and stays plain when its last
name gets a suffix or is cut short (`Plain.append`, `Plain.withFileName`). Different plain paths name different places
in every tree (`Tree.nominal_ne`).
-/
import Mathlib.Tactic
import CbcFile.Proofs.Path.Names
import CbcFile.Proofs.Tree

namespace CbcFile.Path

/-- ordinary names with a single slash between two of them, and no slash before or after -/
structure Plain (path : Path) : Prop where
  written : path.bytes = joinSlash path.segments
  ordinary : ∀ name ∈ path.segments, name ≠ dot ∧ name ≠ dotDot

variable {path other : Path}

theorem plain_of_pieces (h : ∀ piece ∈ splitSlash path.bytes, piece ≠ [] ∧ piece ≠ dot ∧ piece ≠ dotDot) :
    path.Plain := by
  have hsegments : path.segments = splitSlash path.bytes :=
    List.filter_eq_self.2 fun piece hp => decide_eq_true (h piece hp).1
  refine ⟨by rw [hsegments, joinSlash_splitSlash], fun name hname => ?_⟩
  rw [hsegments] at hname
  exact (h name hname).2

namespace Plain

/-- **A plain path is its names** -/
theorem splitSlash_eq (h : path.Plain) (hne : path.bytes ≠ []) : splitSlash path.bytes = path.segments := by
  have hsegments : path.segments ≠ [] := by
    intro hc
    exact hne (by rw [h.written, hc]; rfl)
  calc splitSlash path.bytes
      = splitSlash (joinSlash path.segments) := congrArg splitSlash h.written
    _ = path.segments := splitSlash_joinSlash hsegments fun _ hname => slash_not_mem (List.mem_of_mem_filter hname)

theorem pieces (h : path.Plain) (hne : path.bytes ≠ []) :
    ∀ piece ∈ splitSlash path.bytes, piece ≠ [] ∧ piece ≠ dot ∧ piece ≠ dotDot := by
  intro piece hp
  rw [h.splitSlash_eq hne] at hp
  exact ⟨by simpa using (List.mem_filter.1 hp).2, h.ordinary piece hp⟩

theorem eq_of_segments (h : path.Plain) (ho : other.Plain) (heq : path.segments = other.segments) : path = other := by
  have hbytes : path.bytes = other.bytes := by rw [h.written, ho.written, heq]
  exact congrArg Path.mk hbytes

theorem relative (h : path.Plain) : path.absolute = false := by
  by_cases hne : path.bytes = []
  · simp [absolute, hne]
  · cases hs : splitSlash path.bytes with
    | nil => exact absurd hs (splitSlash_ne_nil _)
    | cons first later =>
      have hfirst := (h.pieces hne first (by rw [hs]; exact List.mem_cons_self)).1
      rw [← Bool.not_eq_true, absolute_iff later (by rw [hs]; rfl : splitSlash path.bytes = [] ++ first :: later) hfirst]
      simp

/-- a plain path whose last name has got a suffix -/
theorem append (h : path.Plain) {suffix : Bytes} (hslash : slash ∉ suffix) (hlen : 2 < suffix.length) :
    (⟨path.bytes ++ suffix⟩ : Path).Plain := by
  obtain ⟨front, last, hs⟩ := exists_last_piece path.bytes
  apply plain_of_pieces
  rw [splitSlash_append hs hslash]
  intro piece hp
  rcases List.mem_append.1 hp with hp | hp
  · -- a piece before the last one is there in the path without the suffix
    have hne : path.bytes ≠ [] := by
      intro hc
      rw [hc, splitSlash] at hs
      rw [← List.nil_append [[]]] at hs
      rw [← (List.append_inj' hs rfl).1] at hp
      cases hp
    exact h.pieces hne piece (by rw [hs]; exact List.mem_append_left _ hp)
  · rw [List.mem_singleton.1 hp]
    refine ⟨fun hc => ?_, append_ne_dot last hlen, append_ne_dotDot last hlen⟩
    rw [(List.append_eq_nil_iff.1 hc).2] at hlen
    simp at hlen

/-- a plain path whose last name has been cut short -/
theorem withFileName (h : path.Plain) {name new : Bytes} (hname : path.components.getLast? = some (.name name))
    (hshort : new <+: name) (hnew : new ≠ [] ∧ new ≠ dot ∧ new ≠ dotDot) : (path.withFileName new).Plain := by
  have hne : path.bytes ≠ [] := by
    intro hc
    have hnone : (⟨[]⟩ : Path).components.getLast? = none := rfl
    rw [show path = ⟨[]⟩ from congrArg Path.mk hc, hnone] at hname
    cases hname
  obtain ⟨front, last, hs⟩ := exists_last_piece path.bytes
  have hlast := h.pieces hne last (by rw [hs]; simp)
  obtain ⟨-, lead, silent, hlead, -, -, hout⟩ := withFileName_pieces hname hs ⟨hlast.1, hlast.2.1⟩ hshort
  apply plain_of_pieces
  rw [hout]
  intro piece hp
  rcases List.mem_append.1 hp with hp | hp
  · exact h.pieces hne piece (by rw [hs, hlead]; simp [hp])
  · rw [List.mem_singleton.1 hp]
    exact hnew

end Plain

end CbcFile.Path

namespace CbcFile.Tree

variable {tree : Tree} {path other : Path}

/-- the nominal place of a plain path is found below the home directory by its names -/
theorem nominal_plain (h : path.Plain) : tree.nominal path = tree.home ++ path.segments := by
  rw [nominal_eq, start, h.relative]
  exact foldl_climb h.ordinary tree.home

/-- **Different plain paths** have different nominal places -/
theorem nominal_ne (h : path.Plain) (ho : other.Plain) (hne : path ≠ other) : tree.nominal path ≠ tree.nominal other := by
  rw [nominal_plain h, nominal_plain ho]
  intro hc
  exact hne (h.eq_of_segments ho (List.append_cancel_left hc))

end CbcFile.Tree
