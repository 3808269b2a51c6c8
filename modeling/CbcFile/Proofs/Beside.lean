/-
Files beside each other. A path leads to a last step in a directory that the walk reaches, and that can be told from its
pieces (`Leads.pieces`, `leads_of_pieces`); a path to a file does (`leads_of_resolve`).

Results, however the path is written:
- `Leads.withFileName`: the path with a shorter file name leads to the same directory.
- `Leads.directoryAt_directory`: there is a directory for a temporary file beside the path.
- `Leads.target_cases`: a rename to the path is hindered only by a directory that the path leads to.
-/
import Mathlib.Tactic
import CbcFile.Proofs.Path.Names
import CbcFile.Proofs.Tree

open CbcFile.Path (splitSlash joinSlash)

namespace CbcFile.Tree

variable {tree : Tree} {path : Path} {here : Location} {name : Bytes}

/-! ## The pieces of a path that leads somewhere -/

theorem Leads.pieces (h : tree.Leads path here name) :
    name ≠ [] ∧ ∃ front, splitSlash path.bytes = front ++ [name] ∧
      tree.walk (tree.start path) (front.filter (· ≠ [])) = .ok here := by
  obtain ⟨front, last, hp, hlast⟩ := Path.exists_last h.nonempty h.slash
  obtain ⟨names, hseg, hwalk⟩ := h.walk
  rw [Path.segments_of_last hp hlast] at hseg
  obtain ⟨rfl, hl⟩ := List.append_inj' hseg rfl
  obtain rfl := List.singleton_inj.1 hl
  exact ⟨hlast, front, hp, hwalk⟩

theorem leads_of_pieces {front : List Bytes} (hp : splitSlash path.bytes = front ++ [name]) (hname : name ≠ [])
    (hzero : 0 ∉ path.bytes) (hshort : path.bytes.length ≤ longestPath)
    (hwalk : tree.walk (tree.start path) (front.filter (· ≠ [])) = .ok here) (hhere : tree.find here = some .directory) :
    tree.Leads path here name := by
  obtain ⟨hnil, hslash⟩ := Path.bytes_of_last hp hname
  exact ⟨hzero, hnil, hshort, hslash, ⟨_, Path.segments_of_last hp hname, hwalk⟩, hhere⟩

/-- a path to something that is no directory leads through directories up to a last step -/
theorem leads_of_resolve {place : Location} (h : tree.resolve path = .ok place)
    (hplace : tree.find place ≠ some .directory) :
    ∃ here name, tree.Leads path here name ∧ tree.step here name = .ok place := by
  obtain ⟨⟨hzero, hnil, hshort⟩, hw, hslash⟩ := resolve_eq_ok.1 h
  have hs : path.trailingSlash = false := by
    by_contra hc
    exact hplace (hslash (by simpa using hc))
  obtain ⟨front, name, hp, hname⟩ := Path.exists_last hnil hs
  rw [Path.segments_of_last hp hname] at hw
  obtain ⟨here, hhere, hlast⟩ := walk_append_ok hw
  have hstep : tree.step here name = .ok place := by
    rw [walk] at hlast
    cases hst : tree.step here name with
    | error failure => rw [hst] at hlast; cases hlast
    | ok next => rw [hst] at hlast; exact hlast
  exact ⟨here, name, leads_of_pieces hp hname hzero hshort hhere (directory_of_step hstep), hstep⟩

/-! ## Another name in the same directory -/

theorem walk_silent {silent : List Bytes} {place : Location} (hs : Path.Silent silent)
    (h : tree.walk here (silent.filter (· ≠ [])) = .ok place) : place = here := by
  rw [nominal_of_walk h]
  clear h
  induction silent with
  | nil => rfl
  | cons piece rest ih =>
    have hrest := ih fun other ho => hs other (List.mem_cons_of_mem piece ho)
    rcases hs piece List.mem_cons_self with rfl | rfl
    · exact hrest
    · rw [List.filter_cons_of_pos (by decide), List.foldl_cons, climb, if_pos rfl]
      exact hrest

/-- **The path with a shorter file name** leads to the same directory -/
theorem Leads.withFileName {last : Bytes} (h : tree.Leads path here last) (hlast : last ≠ Path.dot)
    (hname : path.components.getLast? = some (.name name)) {new : Bytes} (hnew : new ≠ []) (hshort : new <+: name) :
    last = name ∧ tree.Leads (path.withFileName new) here new := by
  obtain ⟨hne, lead, hlead, hwalk⟩ := h.pieces
  obtain ⟨rfl, front, silent, rfl, hfront, hsilent, hout⟩ := Path.withFileName_pieces hname hlead ⟨hne, hlast⟩ hshort
  refine ⟨rfl, leads_of_pieces hout hnew ?_ ?_ ?_ h.directory⟩
  · intro hc
    rcases Path.mem_shorter hlead hout hshort hc with hc | hc
    · exact absurd hc (by decide)
    · exact h.zero hc
  · exact (Path.length_shorter hlead hout hfront hshort).trans h.short
  · rw [List.filter_append] at hwalk
    obtain ⟨between, hbetween, hw⟩ := walk_append_ok hwalk
    obtain rfl := walk_silent hsilent hw
    rw [start, Path.absolute_shorter hlead hout hfront hne hnew]
    exact hbetween

/-! ## The directory of a file -/

/-- **There is a directory** for a temporary file beside a path, whether or not anything is at the path itself -/
theorem Leads.directoryAt_directory (h : tree.Leads path here name) (hhome : tree.find tree.home = some .directory) :
    0 ∉ path.directory.bytes ∧ ∃ place, tree.directoryAt path.directory = .ok place := by
  rcases Path.directory_cases path with hdot | ⟨front, rest, hp, hends, hrest, hcut⟩
  · rw [hdot]
    refine ⟨by decide, tree.home, directoryAt_of_walk (by decide) (by decide) (by decide) ?_ hhome⟩
    have hstart : tree.start ⟨Path.dot⟩ = tree.home := rfl
    have hseg : (⟨Path.dot⟩ : Path).segments = [Path.dot] := by decide
    have hstep : tree.step tree.home Path.dot = .ok tree.home := by
      rw [step, if_neg (not_not.2 hhome), if_pos rfl]
    rw [hstart, hseg, Tree.walk, hstep]
    rfl
  · rw [hcut]
    -- the walk to the last step comes through the place where the path was cut
    obtain ⟨-, lead, hlead, hwalk⟩ := h.pieces
    obtain ⟨more, hmore⟩ : ∃ more, lead = front ++ more := by
      rcases List.eq_nil_or_concat rest with hr | ⟨more, piece, hr⟩
      · exact absurd hr hrest
      · rw [hlead, hr, List.concat_eq_append, ← List.append_assoc] at hp
        exact ⟨more, (List.append_inj' hp rfl).1⟩
    rw [hmore, List.filter_append] at hwalk
    obtain ⟨between, hbetween, hw⟩ := walk_append_ok hwalk
    have hcutBytes := Path.upTo_isPrefix hp hrest
    have hzero : 0 ∉ (Path.upTo front).bytes := fun hc => h.zero (hcutBytes.subset hc)
    refine ⟨hzero, between, directoryAt_of_walk hzero (Path.upTo_ne_nil hends) (hcutBytes.length_le.trans h.short) ?_
      (directory_of_walk hw h.directory)⟩
    rw [Path.segments_upTo hp hends, start, Path.absolute_upTo hp hends hrest]
    exact hbetween

/-- the path from the root of a temporary file beside the output is not too long -/
def HasRoom (tree : Tree) (output : Path) : Prop :=
  ((tree.fromRoot output.directory).join (temporaryName 0)).bytes.length ≤ longestPath

theorem Leads.newPlace_eq_ok (h : tree.Leads path here name) (hhome : tree.find tree.home = some .directory)
    (hroom : tree.HasRoom path) : ∃ spot, tree.newPlace path.directory (tree.freshName path) = .ok spot := by
  obtain ⟨hzero, place, hplace⟩ := h.directoryAt_directory hhome
  refine ⟨place ++ [tree.freshName path], ?_⟩
  rw [newPlace, if_neg hzero, if_neg (not_lt.2 hroom), hplace]

theorem Leads.newPlace_eq_error (h : tree.Leads path here name) (hhome : tree.find tree.home = some .directory)
    (hroom : ¬ tree.HasRoom path) : tree.newPlace path.directory (tree.freshName path) = .error .nameTooLong := by
  obtain ⟨hzero, -⟩ := h.directoryAt_directory hhome
  rw [newPlace, if_neg hzero, if_pos (not_le.1 hroom)]

/-- **The only hindrance to a rename** is a directory that the path leads to -/
theorem Leads.target_cases (h : tree.Leads path here name) (htree : tree.WellFormed) (hlen : name.length ≤ longestName) :
    (tree.stat path = .ok .directory ∧
      tree.target path = .error (if name = Path.dot ∨ name = Path.dotDot then .busy else .isADirectory)) ∨
    (tree.stat path ≠ .ok .directory ∧ ∃ goal, tree.target path = .ok goal) := by
  rw [h.stat_eq hlen, h.target_eq hlen]
  by_cases hname : name = Path.dot ∨ name = Path.dotDot
  · have hdir : tree.find (climb here name) = some .directory := by
      unfold climb
      split_ifs with hdot hup
      · exact h.directory
      · exact htree.find_dropLast h.directory
      · exact absurd hname (not_or.2 ⟨hdot, hup⟩)
    exact Or.inl ⟨by rw [hdir], by rw [if_pos hname, if_pos hname]⟩
  · rw [if_neg hname, if_neg hname]
    rw [not_or] at hname
    rw [climb_of_ne hname.1 hname.2]
    cases hf : tree.find (here ++ [name]) with
    | none => exact Or.inr ⟨by simp, _, rfl⟩
    | some node =>
      cases node with
      | directory => exact Or.inl ⟨rfl, rfl⟩
      | file mode data => exact Or.inr ⟨by simp, _, rfl⟩

end CbcFile.Tree
