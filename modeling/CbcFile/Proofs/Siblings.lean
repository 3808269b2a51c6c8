/-
The three files of a run lie side by side. However the path of the encrypted file is written, if a run gets as far as its
rename, then the path, the key path and the output path lead to entries of one directory, whose names are a stem with
the extension, that name with the key suffix, and the stem alone (`places`). So the output is neither of the inputs.

Result:
- `run_keeps_inputs`: whatever a run comes to, the encrypted file and the key file are what they were. A run that fails
  changes nothing; one that succeeds changes a single entry, which lies beside the encrypted file.
-/
import Mathlib.Tactic
import CbcFile.Proofs.Run

namespace CbcFile

/-! ## The key file -/

/-- the key path leads to the same directory, to the name with the key suffix -/
theorem leads_keyPath {tree : Tree} {file : Path} {here there : Location} {name last : Bytes}
    (h : tree.Leads file here name) (hkey : tree.Leads (keyPath file) there last) :
    there = here ∧ last = name ++ keySuffix := by
  obtain ⟨-, front, hpieces, hwalk⟩ := h.pieces
  obtain ⟨-, others, hkeyPieces, hkeyWalk⟩ := hkey.pieces
  -- the suffix holds no slash, so it goes to the last piece and leaves the others as they are
  have hsplit : others ++ [last] = front ++ [name ++ keySuffix] :=
    hkeyPieces.symm.trans (Path.splitSlash_append hpieces (by decide : Path.slash ∉ keySuffix))
  obtain ⟨rfl, hlast⟩ := List.append_inj' hsplit rfl
  have hstart : tree.start (keyPath file) = tree.start file := by
    have habsolute : (keyPath file).absolute = file.absolute := by
      simp [Path.absolute, keyPath, h.nonempty]
    rw [Tree.start, habsolute, Tree.start]
  rw [hstart, hwalk] at hkeyWalk
  exact ⟨(Except.ok.inj hkeyWalk).symm, List.singleton_inj.1 hlast⟩

/-! ## Places -/

/-- **The three places** of a run that finds its files: a directory, and three names in it -/
theorem places {tree : Tree} {file : Path} {keyMode mode : Nat} {keyBytes data stem : Bytes}
    (hkey : tree.stat (keyPath file) = .ok (.file keyMode keyBytes)) (hfile : tree.stat file = .ok (.file mode data))
    (hname : Named file stem) :
    ∃ here, tree.resolve file = .ok (here ++ [stem ++ extension]) ∧
      tree.resolve (keyPath file) = .ok (here ++ [stem ++ extension ++ keySuffix]) ∧
      tree.Leads (file.withFileName stem) here stem := by
  obtain ⟨here, hleads, houtput, hstep⟩ := leads_file hfile hname
  obtain ⟨place, hresolve, hplace⟩ := Tree.stat_eq_ok hkey
  obtain ⟨there, last, hkeyLeads, hkeyStep⟩ := Tree.leads_of_resolve hresolve (by rw [hplace]; simp)
  obtain ⟨rfl, rfl⟩ := leads_keyPath hleads hkeyLeads
  refine ⟨there, ?_, ?_, houtput⟩
  · rw [hleads.resolve_eq, hstep]
  · rw [hresolve, Tree.step_eq_climb hkeyStep,
      Tree.climb_of_ne (Path.append_ne_dot _ (by decide)) (Path.append_ne_dotDot _ (by decide))]

/-- **A run never harms its inputs.** Whatever it comes to, the path and the key path lead to what they led to before,
or to nothing as before. If it fails, nothing at all is changed. If it succeeds, the encrypted file and the key file are
in one directory, their names are a stem with the extension and that name with the key suffix, and the only change is at
the place of the stem in that directory, which is neither of theirs and holds a file now. The output path leads there. -/
theorem run_keeps_inputs (tree : Tree) (file : Path) :
    let attempt := run tree file
    attempt.tree.stat file = tree.stat file ∧
    attempt.tree.stat (keyPath file) = tree.stat (keyPath file) ∧
    match attempt.result with
    | .error _ => attempt.tree = tree
    | .ok summary => ∃ here stem mode plaintext,
        let place := here ++ [stem]
        file.fileName? = some (stem ++ extension) ∧
        tree.resolve file = .ok (here ++ [stem ++ extension]) ∧
        tree.resolve (keyPath file) = .ok (here ++ [stem ++ extension ++ keySuffix]) ∧
        place ≠ here ++ [stem ++ extension] ∧ place ≠ here ++ [stem ++ extension ++ keySuffix] ∧
        attempt.tree = tree.put place (.file mode plaintext) ∧
        attempt.tree.stat summary.output = .ok (.file mode plaintext) ∧
        ∀ other, other ≠ place → attempt.tree.find other = tree.find other := by
  intro attempt
  rcases run_cases tree file with
    ⟨error, hr, ht⟩ | ⟨stem, keyMode, keyBytes, mode, data, plaintext, goal, hkey, hfile, hname, hgoal, hr, ht⟩
  · rw [show attempt.tree = tree from ht, show attempt.result = .error error from hr]
    exact ⟨rfl, rfl, rfl⟩
  · obtain ⟨here, hfilePlace, hkeyPlace, hleads⟩ := places hkey hfile hname
    obtain ⟨there, name, hother, -, hdir, rfl⟩ := Tree.target_eq_ok.1 hgoal
    obtain ⟨rfl, rfl⟩ := hleads.unique hother
    have hfileNe : there ++ [name] ≠ there ++ [name ++ extension] := by simp [extension, ascii]
    have hkeyNe : there ++ [name] ≠ there ++ [name ++ extension ++ keySuffix] := by
      simp [extension, keySuffix, ascii, List.append_assoc]
    rw [show attempt.tree = _ from ht, show attempt.result = _ from hr]
    refine ⟨Tree.stat_put_of_ne hdir hfilePlace hfileNe.symm, Tree.stat_put_of_ne hdir hkeyPlace hkeyNe.symm, ?_⟩
    exact ⟨there, name, _, _, fileName?_eq_some.2 hname.2, hfilePlace, hkeyPlace, hfileNe, hkeyNe, rfl,
      Tree.stat_put_target hgoal, fun other hne => Tree.find_put_of_ne tree hne _⟩

end CbcFile
