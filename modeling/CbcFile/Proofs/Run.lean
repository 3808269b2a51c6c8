/-
What a run comes to. After the checks of a run, reading the key, opening the encrypted file and making the temporary file
cannot fail any more: a path to a file leads to a directory, and the output is beside the file (`leads_output`). So the
bytes and the output path decide (`run_named`). What a run does to the tree is one of two things, nothing at all or one
file put at the goal of the output path (`run_cases`).

Results:
- `run_result`: a run ends in one of seven ways, and which one is read off the tree.
- `run_wellFormed`: a run leaves a tree of files, so that this holds run after run.

Only names are limited in length, not paths as a whole: for the path of the temporary file, which is made absolute, this
is a hypothesis (`Tree.HasRoom`).
-/
import Mathlib.Tactic
import CbcFile.Program
import CbcFile.Proofs.Beside
import CbcFile.Proofs.FileDecrypt
import CbcFile.Proofs.Format
import CbcFile.Proofs.Stream.Faults

namespace CbcFile

/-! ## Checks -/

/-- the last component is this stem, which is not empty, and the extension -/
def Named (file : Path) (stem : Bytes) : Prop :=
  stem ≠ [] ∧ file.components.getLast? = some (.name (stem ++ extension))

theorem fileName?_eq_some {file : Path} {name : Bytes} :
    file.fileName? = some name ↔ file.components.getLast? = some (.name name) := by
  unfold Path.fileName?
  cases file.components.getLast? with
  | none => simp
  | some last => cases last <;> simp

theorem companions_named {file : Path} {stem : Bytes} (h : Named file stem) :
    companions file = .ok ⟨file, keyPath file, file.withFileName stem⟩ := by
  have hstem : file.fileName?.bind stem? = some stem := by
    rw [fileName?_eq_some.2 h.2]
    exact stem?_eq_some.2 ⟨rfl, h.1⟩
  rw [companions, hstem]

theorem companions_unnamed {file : Path} (h : ∀ stem, ¬ Named file stem) :
    companions file = .error (.badExtension file) := by
  unfold companions
  cases hs : file.fileName?.bind stem? with
  | none => rfl
  | some stem =>
    obtain ⟨name, hname, hstem⟩ := Option.bind_eq_some_iff.1 hs
    obtain ⟨rfl, hne⟩ := stem?_eq_some.1 hstem
    exact absurd ⟨hne, fileName?_eq_some.1 hname⟩ (h stem)

/-! ## After the checks -/

/-- a file that is there and well named has a last step, and its output has the stem in the same directory -/
theorem leads_file {tree : Tree} {file : Path} {mode : Nat} {data stem : Bytes}
    (hfile : tree.stat file = .ok (.file mode data)) (hname : Named file stem) :
    ∃ here, tree.Leads file here (stem ++ extension) ∧ tree.Leads (file.withFileName stem) here stem ∧
      tree.step here (stem ++ extension) = .ok (here ++ [stem ++ extension]) := by
  obtain ⟨place, hresolve, hplace⟩ := Tree.stat_eq_ok hfile
  obtain ⟨here, last, hleads, hstep⟩ := Tree.leads_of_resolve hresolve (by rw [hplace]; simp)
  have hdot : last ≠ Path.dot := by
    intro hc
    rw [Tree.step_eq_climb hstep, Tree.climb, if_pos hc, hleads.directory] at hplace
    cases hplace
  obtain ⟨rfl, houtput⟩ := hleads.withFileName hdot hname.2 hname.1 (List.prefix_append stem extension)
  refine ⟨here, hleads, houtput, ?_⟩
  rw [hstep, Tree.step_eq_climb hstep, Tree.climb_of_ne hdot (Path.append_ne_dotDot stem (by decide))]

/-- the output of a file that is there and well named has a place in the file's own directory -/
theorem leads_output {tree : Tree} {file : Path} {mode : Nat} {data stem : Bytes}
    (hfile : tree.stat file = .ok (.file mode data)) (hname : Named file stem) :
    ∃ here, tree.Leads (file.withFileName stem) here stem ∧ stem.length ≤ Tree.longestName := by
  obtain ⟨here, -, houtput, hstep⟩ := leads_file hfile hname
  have hlen := Tree.length_of_step hstep (Path.append_ne_dot stem (by decide)) (Path.append_ne_dotDot stem (by decide))
  exact ⟨here, houtput, (List.prefix_append stem extension).length_le.trans hlen⟩

theorem run_unnamed {tree : Tree} {file : Path} (hkey : tree.isFile (keyPath file) = true)
    (hfile : tree.isFile file = true) (h : ∀ stem, ¬ Named file stem) :
    (run tree file).result = .error (.badExtension file) := by
  rw [run, if_neg (not_not.2 hkey), if_neg (not_not.2 hfile), companions_unnamed h]

/-- **A run past the checks**: the output is beside the file, so a temporary file can be made there, and the bytes and
the output path decide -/
theorem run_named {tree : Tree} {file : Path} {stem keyBytes data : Bytes} {keyMode mode : Nat}
    (hkey : tree.stat (keyPath file) = .ok (.file keyMode keyBytes)) (hfile : tree.stat file = .ok (.file mode data))
    (hname : Named file stem) (hhome : tree.find tree.home = some .directory)
    (hroom : tree.HasRoom (file.withFileName stem)) :
    ((run tree file).result, (run tree file).tree) =
      match Key.ofBytes? keyBytes with
      | none => (.error (.cipher (.keyLength keyBytes.length)), tree)
      | some key =>
        match decryptBytes key data with
        | .error error => (.error (error.inFile file), tree)
        | .ok plaintext =>
          match tree.target (file.withFileName stem) with
          | .error failure => (.error (.io (.writeOutput (file.withFileName stem)) failure), tree)
          | .ok goal => (.ok ⟨file.withFileName stem, data.length, plaintext.length⟩,
              tree.put goal (.file (outputMode tree (file.withFileName stem)) plaintext)) := by
  have hkeyFile : tree.isFile (keyPath file) = true := Tree.isFile_iff.2 ⟨keyMode, keyBytes, hkey⟩
  have hencFile : tree.isFile file = true := Tree.isFile_iff.2 ⟨mode, data, hfile⟩
  obtain ⟨here, hleads, -⟩ := leads_output hfile hname
  obtain ⟨spot, hspot⟩ := hleads.newPlace_eq_ok hhome hroom
  have hdecrypt := decrypt_files (Tree.read_of_stat hkey) hfile hspot
  rw [run, if_neg (not_not.2 hkeyFile), if_neg (not_not.2 hencFile), companions_named hname]
  exact hdecrypt

/-- **What a run can do**: fail and change nothing, or pass all its checks and put the plaintext where the output leads -/
theorem run_cases (tree : Tree) (file : Path) :
    (∃ error, (run tree file).result = .error error ∧ (run tree file).tree = tree) ∨
    ∃ stem keyMode keyBytes mode data plaintext goal, tree.stat (keyPath file) = .ok (.file keyMode keyBytes) ∧
      tree.stat file = .ok (.file mode data) ∧ Named file stem ∧
      tree.target (file.withFileName stem) = .ok goal ∧
      (run tree file).result = .ok ⟨file.withFileName stem, data.length, plaintext.length⟩ ∧
      (run tree file).tree = tree.put goal (.file (outputMode tree (file.withFileName stem)) plaintext) := by
  by_cases hkey : tree.isFile (keyPath file) = true
  swap
  · rw [run, if_pos hkey]
    exact Or.inl ⟨_, rfl, rfl⟩
  by_cases hfile : tree.isFile file = true
  swap
  · rw [run, if_neg (not_not.2 hkey), if_pos hfile]
    exact Or.inl ⟨_, rfl, rfl⟩
  rw [run, if_neg (not_not.2 hkey), if_neg (not_not.2 hfile)]
  by_cases hname : ∃ stem, Named file stem
  swap
  · rw [companions_unnamed (not_exists.1 hname)]
    exact Or.inl ⟨_, rfl, rfl⟩
  obtain ⟨stem, hname⟩ := hname
  rw [companions_named hname]
  obtain ⟨keyMode, keyBytes, hkeyStat⟩ := Tree.isFile_iff.1 hkey
  rcases decrypt_cases tree (keyPath file) file (file.withFileName stem) with
    h | ⟨key, mode, data, plaintext, goal, -, hfileStat, -, hgoal, hresult, htree⟩
  · exact Or.inl h
  · exact Or.inr ⟨stem, keyMode, keyBytes, mode, data, plaintext, goal, hkeyStat, hfileStat, hname, hgoal, hresult, htree⟩

/-- a run that fails leaves the tree as it was -/
theorem run_tree_of_error {tree : Tree} {file : Path} {error : DecryptError}
    (h : (run tree file).result = .error error) : (run tree file).tree = tree := by
  rcases run_cases tree file with ⟨_, -, ht⟩ | ⟨_, _, _, _, _, _, _, -, -, -, -, hr, -⟩
  · exact ht
  · rw [hr] at h
    cases h

/-- **A run leaves a tree of files**, so another run finds one -/
theorem run_wellFormed {tree : Tree} (h : tree.WellFormed) (file : Path) : (run tree file).tree.WellFormed := by
  by_cases hkey : tree.isFile (keyPath file) = true
  swap
  · rw [run, if_pos hkey]
    exact h
  by_cases hfile : tree.isFile file = true
  swap
  · rw [run, if_neg (not_not.2 hkey), if_pos hfile]
    exact h
  rw [run, if_neg (not_not.2 hkey), if_neg (not_not.2 hfile)]
  cases companions file with
  | error error => exact h
  | ok paths => exact decrypt_wellFormed h paths.key paths.encrypted paths.output

/-- **A run ends as its specification says, and in no other way.** In a tree of files in which the path of the temporary
file is not too long, a run answers with the first of these that applies: the key file is missing, the encrypted file is
missing, its name is not a stem with the extension, the key is not thirty-two bytes, the bytes do not decrypt, the output
path leads to a directory. Otherwise it succeeds, and the output path leads to the plaintext. -/
theorem run_result (tree : Tree) (file : Path) (htree : tree.WellFormed)
    (hroom : ∀ stem, Named file stem → tree.HasRoom (file.withFileName stem)) :
    let attempt := run tree file
    if ¬ tree.isFile (keyPath file) then attempt.result = .error (.missingFile .key (keyPath file))
    else if ¬ tree.isFile file then attempt.result = .error (.missingFile .encrypted file)
    else
      ((∀ stem, ¬ Named file stem) → attempt.result = .error (.badExtension file)) ∧
      ∀ stem, Named file stem → ∃ keyBytes data,
        tree.read (keyPath file) = .ok keyBytes ∧ tree.read file = .ok data ∧
        match Key.ofBytes? keyBytes with
        | none => keyBytes.length ≠ 32 ∧ attempt.result = .error (.cipher (.keyLength keyBytes.length)) ∧
            CipherFault.text (.keyLength keyBytes.length) =
              s!"invalid key length: expected 32 bytes, got {keyBytes.length}"
        | some key => keyBytes = key.toList ∧
          let output := file.withFileName stem
          match decryptBytes key data with
          | .error (.inputTooSmall n) => attempt.result = .error (.inputTooSmall n)
          | .error (.cipher fault) => attempt.result = .error (.cipher (.inFile file fault)) ∧
              CipherFault.text (.inFile file fault) = s!"could not decrypt file {file.display}: {fault.text}"
          | .error _ => False
          | .ok plaintext =>
            match tree.stat output with
            | .ok .directory => ∃ failure, attempt.result = .error (.io (.writeOutput output) failure) ∧
                failure = (if stem = Path.dot ∨ stem = Path.dotDot then .busy else .isADirectory) ∧
                Activity.text (.writeOutput output) = s!"failed to write output file {output.display}"
            | _ => attempt.result = .ok ⟨output, data.length, plaintext.length⟩ ∧
                attempt.tree.read output = .ok plaintext := by
  intro attempt
  by_cases hkey : tree.isFile (keyPath file) = true
  swap
  · rw [if_pos hkey]
    exact congrArg Attempt.result (if_pos hkey)
  rw [if_neg (not_not.2 hkey)]
  by_cases hfile : tree.isFile file = true
  swap
  · rw [if_pos hfile]
    exact congrArg Attempt.result ((if_neg (not_not.2 hkey)).trans (if_pos hfile))
  rw [if_neg (not_not.2 hfile)]
  refine ⟨run_unnamed hkey hfile, fun stem hname => ?_⟩
  obtain ⟨keyMode, keyBytes, hkeyStat⟩ := Tree.isFile_iff.1 hkey
  obtain ⟨mode, data, hfileStat⟩ := Tree.isFile_iff.1 hfile
  refine ⟨keyBytes, data, Tree.read_of_stat hkeyStat, Tree.read_of_stat hfileStat, ?_⟩
  have hrun := run_named hkeyStat hfileStat hname htree.home (hroom stem hname)
  cases hk : Key.ofBytes? keyBytes with
  | none =>
    rw [hk] at hrun
    exact ⟨Key.ofBytes?_eq_none.1 hk, congrArg Prod.fst hrun, rfl⟩
  | some key =>
    rw [hk] at hrun
    refine ⟨Key.ofBytes?_eq_some.1 hk, ?_⟩
    simp only at hrun ⊢
    cases hb : decryptBytes key data with
    | error error =>
      rw [hb] at hrun
      rcases decryptBytes_error hb with rfl | ⟨fault, rfl⟩
      · exact congrArg Prod.fst hrun
      · exact ⟨congrArg Prod.fst hrun, rfl⟩
    | ok plaintext =>
      rw [hb] at hrun
      simp only at hrun ⊢
      obtain ⟨here, hleads, hlen⟩ := leads_output hfileStat hname
      rcases hleads.target_cases htree hlen with ⟨hstat, htarget⟩ | ⟨hstat, goal, htarget⟩
      · rw [htarget] at hrun
        rw [hstat]
        exact ⟨_, congrArg Prod.fst hrun, rfl, rfl⟩
      · rw [htarget] at hrun
        have hread : (run tree file).tree.read (file.withFileName stem) = .ok plaintext := by
          apply Tree.read_of_stat
          rw [show (run tree file).tree = _ from congrArg Prod.snd hrun]
          exact Tree.stat_put_target htarget
        split
        · exact absurd ‹_› hstat
        · exact ⟨congrArg Prod.fst hrun, hread⟩

/-- where the encrypted file of `sealedPair` is -/
def sealedFile : Path :=
  ⟨ascii ['a', '.', 'a', 'e', 's']⟩

/-- an encrypted file and its key beside each other -/
def sealedPair : Tree :=
  ⟨[], [([ascii ['a', '.', 'a', 'e', 's']],
      .file 0o644 (encryptBytes (.replicate 32 0) (.replicate 16 0) (ascii ['h', 'i']))),
    ([ascii ['a', '.', 'a', 'e', 's', '.', 'k', 'e', 'y']], .file 0o600 (Vector.replicate 32 0).toList)]⟩

theorem run_sealedPair :
    sealedPair.WellFormed ∧
    (∀ stem, Named sealedFile stem → sealedPair.HasRoom (sealedFile.withFileName stem)) ∧
    (run sealedPair sealedFile).tree.read ⟨ascii ['a']⟩ = .ok (ascii ['h', 'i']) := by
  have htree : sealedPair.WellFormed := by
    refine ⟨rfl, fun entry hentry => ?_⟩
    rcases List.mem_cons.1 hentry with rfl | hentry
    · rfl
    · rw [List.mem_singleton.1 hentry]
      rfl
  have hroom : ∀ stem, Named sealedFile stem → sealedPair.HasRoom (sealedFile.withFileName stem) := by
    intro stem h
    have hname : ascii ['a'] ++ extension = stem ++ extension :=
      Path.Component.name.inj (Option.some.inj ((by decide : _ = _).symm.trans h.2))
    rw [← List.append_cancel_right hname, Tree.HasRoom]
    decide
  refine ⟨htree, hroom, ?_⟩
  have h := run_result sealedPair sealedFile htree hroom
  rw [if_neg (by decide), if_neg (by decide)] at h
  obtain ⟨keyBytes, data, hkey, hdata, hm⟩ := h.2 (ascii ['a']) ⟨by decide, by decide⟩
  obtain rfl : (Vector.replicate 32 0).toList = keyBytes := Except.ok.inj hkey
  obtain rfl : encryptBytes (.replicate 32 0) (.replicate 16 0) (ascii ['h', 'i']) = data := Except.ok.inj hdata
  have hb : decryptBytes (.replicate 32 0) (encryptBytes (.replicate 32 0) (.replicate 16 0) (ascii ['h', 'i'])) =
      .ok (ascii ['h', 'i']) := decryptBytes_eq_ok.2 ⟨_, rfl⟩
  rw [Key.ofBytes?_toList] at hm
  simp only [hb] at hm
  exact hm.2.2

end CbcFile
