/-
What a run logs. All runs go through the same events in the same order (`course`); a run that fails has logged those of
the stages before the one that failed. `run_course` says which, together with the result: past the checks only the length
of the key, the place for a temporary file, the bytes and the output path count.

Results:
- `log_is_cut`: the log is a prefix of the one course, where it is cut tells how the run ended, and the numbers in it are
  the sizes of the files;
- `log_farFile`: it can be cut between the encrypted file and the temporary file, because a path can be short enough for
  its files to be found and too long for a temporary file beside them.
-/
import Mathlib.Tactic
import CbcFile.Proofs.Agreement
import CbcFile.Proofs.Run

namespace CbcFile

/-! ## The program -/

/-- what is seen of an attempt when this much of its log is shown -/
def Attempt.report (attempt : Attempt Summary) (log : List Event) : Report :=
  match attempt.result with
  | .ok _ => ⟨0, "", log, "", attempt.tree⟩
  | .error error => ⟨1, "", log, error.report, attempt.tree⟩

/-- **Accepted arguments** make the program a run, of whose log a filter shows a part -/
theorem program_of_parse {line : List Bytes} {arguments : Arguments} (h : Arguments.parse line = .ok arguments)
    (tree : Tree) (setting : Option String) :
    program tree setting line = (run tree arguments.file).report
      ((run tree arguments.file).log.filter (chosenFilter setting arguments.verbosity).allows) := by
  rw [program, h]
  rfl

namespace Attempt

variable {attempt : Attempt Summary} {log : List Event}

theorem report_log : (attempt.report log).log = log := by
  unfold report
  cases attempt.result <;> rfl

theorem report_tree : (attempt.report log).tree = attempt.tree := by
  unfold report
  cases attempt.result <;> rfl

theorem report_stdout : (attempt.report log).stdout = "" := by
  unfold report
  cases attempt.result <;> rfl

theorem report_exitCode : (attempt.report log).exitCode = 0 ↔ ∃ summary, attempt.result = .ok summary := by
  unfold report
  cases attempt.result <;> simp

theorem report_exitCode_of_error {error : DecryptError} (h : attempt.result = .error error) :
    (attempt.report log).exitCode = 1 := by
  rw [report, h]

end Attempt

/-! ## The course of a run -/

/-- all events of a run in order: its paths, and the lengths of the key file, the encrypted file and the plaintext -/
def course (file output : Path) (temporary : TemporaryPath) (key encrypted plaintext : Nat) : List Event :=
  [.resolvedPaths ⟨file, keyPath file, output⟩, .loadedKey (keyPath file) key, .openedEncrypted file encrypted,
    .writingTemporary temporary, .streamDecrypted ⟨encrypted - 16, plaintext⟩, .succeeded output plaintext]

/-- the files of a run are there, with these bytes, and the encrypted file's name is this stem with the extension -/
structure Ready (tree : Tree) (file : Path) (stem keyBytes data : Bytes) : Prop where
  key : ∃ mode, tree.stat (keyPath file) = .ok (.file mode keyBytes)
  encrypted : ∃ mode, tree.stat file = .ok (.file mode data)
  named : Named file stem

/-- the files hold one thing each -/
theorem Ready.unique {tree : Tree} {file : Path} {stem otherStem keyBytes data otherKey otherData : Bytes}
    (h : Ready tree file stem keyBytes data) (hother : Ready tree file otherStem otherKey otherData) :
    keyBytes = otherKey ∧ data = otherData := by
  obtain ⟨⟨keyMode, hkey⟩, ⟨mode, hfile⟩, -⟩ := h
  obtain ⟨⟨otherKeyMode, hotherKey⟩, ⟨otherMode, hotherFile⟩, -⟩ := hother
  rw [hkey] at hotherKey
  rw [hfile] at hotherFile
  exact ⟨(Node.file.inj (Except.ok.inj hotherKey)).2, (Node.file.inj (Except.ok.inj hotherFile)).2⟩

/-- the checks of a run find just this out -/
theorem exists_ready_iff {tree : Tree} {file : Path} : (∃ stem keyBytes data, Ready tree file stem keyBytes data) ↔
    tree.isFile (keyPath file) = true ∧ tree.isFile file = true ∧ ∃ stem, Named file stem := by
  simp only [Tree.isFile_iff]
  constructor
  · rintro ⟨stem, keyBytes, data, ⟨keyMode, hkey⟩, ⟨mode, hfile⟩, hname⟩
    exact ⟨⟨keyMode, keyBytes, hkey⟩, ⟨mode, data, hfile⟩, stem, hname⟩
  · rintro ⟨⟨keyMode, keyBytes, hkey⟩, ⟨mode, data, hfile⟩, stem, hname⟩
    exact ⟨stem, keyBytes, data, ⟨keyMode, hkey⟩, ⟨mode, hfile⟩, hname⟩

/-- **A run that fails its checks** logs nothing, and the first check that fails is its error -/
theorem run_not_ready {tree : Tree} {file : Path} (h : ¬ ∃ stem keyBytes data, Ready tree file stem keyBytes data) :
    (run tree file).log = [] ∧ (run tree file).result = .error (
      if ¬ tree.isFile (keyPath file) then .missingFile .key (keyPath file)
      else if ¬ tree.isFile file then .missingFile .encrypted file
      else .badExtension file) := by
  rw [exists_ready_iff] at h
  by_cases hkey : tree.isFile (keyPath file) = true
  swap
  · rw [run, if_pos hkey, if_pos hkey]
    exact ⟨rfl, rfl⟩
  by_cases hfile : tree.isFile file = true
  swap
  · rw [run, if_neg (not_not.2 hkey), if_pos hfile, if_neg (not_not.2 hkey), if_pos hfile]
    exact ⟨rfl, rfl⟩
  rw [run, if_neg (not_not.2 hkey), if_neg (not_not.2 hfile), if_neg (not_not.2 hkey), if_neg (not_not.2 hfile),
    companions_unnamed fun stem hname => h ⟨hkey, hfile, stem, hname⟩]
  exact ⟨rfl, rfl⟩

/-- **A run past its checks**, told without the temporary file: what it comes to, what it logs on the way and which tree
it leaves -/
theorem Ready.run_eq {tree : Tree} {file : Path} {stem keyBytes data : Bytes} (h : Ready tree file stem keyBytes data) :
    let output := file.withFileName stem
    let events := course file output (tree.temporary output) keyBytes.length data.length
    run tree file =
      match Key.ofBytes? keyBytes with
      | none => ⟨.error (.cipher (.keyLength keyBytes.length)), (events 0).take 2, tree⟩
      | some key =>
        match tree.newPlace output.directory (tree.freshName output) with
        | .error failure =>
          ⟨.error (.io (.createTemporary output.directory) (failure.making (tree.temporary output))), (events 0).take 3,
            tree⟩
        | .ok _ =>
          match decryptBytes key data with
          | .error error => ⟨.error (error.inFile file), (events 0).take 4, tree⟩
          | .ok plaintext =>
            match tree.target output with
            | .error failure => ⟨.error (.io (.writeOutput output) failure), (events plaintext.length).take 5, tree⟩
            | .ok goal => ⟨.ok ⟨output, data.length, plaintext.length⟩, (events plaintext.length).take 5,
                tree.put goal (.file (outputMode tree output) plaintext)⟩ := by
  obtain ⟨⟨keyMode, hkey⟩, ⟨mode, hfile⟩, hname⟩ := h
  intro output events
  have hkeyFile : tree.isFile (keyPath file) = true := Tree.isFile_iff.2 ⟨keyMode, keyBytes, hkey⟩
  have hencFile : tree.isFile file = true := Tree.isFile_iff.2 ⟨mode, data, hfile⟩
  rw [run, if_neg (not_not.2 hkeyFile), if_neg (not_not.2 hencFile), companions_named hname]
  simp only [decrypt_eq (Tree.read_of_stat hkey) hfile]
  cases Key.ofBytes? keyBytes with
  | none => rfl
  | some key =>
    simp only
    cases tree.newPlace output.directory (tree.freshName output) with
    | error failure => rfl
    | ok spot =>
      simp only
      cases decryptBytes key data with
      | error error => rfl
      | ok plaintext =>
        simp only
        cases tree.target output with
        | error failure => rfl
        | ok goal => rfl

/-- **The course of a run past its checks**, and how it ends -/
theorem run_course {tree : Tree} {file : Path} {stem keyBytes data : Bytes} (h : Ready tree file stem keyBytes data) :
    let output := file.withFileName stem
    let events := course file output (tree.temporary output) keyBytes.length data.length
    ((run tree file).result, (run tree file).log) =
      match Key.ofBytes? keyBytes with
      | none => (.error (.cipher (.keyLength keyBytes.length)), (events 0).take 2)
      | some key =>
        match tree.newPlace output.directory (tree.freshName output) with
        | .error failure =>
          (.error (.io (.createTemporary output.directory) (failure.making (tree.temporary output))), (events 0).take 3)
        | .ok _ =>
          match decryptBytes key data with
          | .error error => (.error (error.inFile file), (events 0).take 4)
          | .ok plaintext =>
            match tree.target output with
            | .error failure => (.error (.io (.writeOutput output) failure), (events plaintext.length).take 5)
            | .ok _ => (.ok ⟨output, data.length, plaintext.length⟩, events plaintext.length) := by
  intro output events
  rw [h.run_eq]
  cases Key.ofBytes? keyBytes with
  | none => rfl
  | some key =>
    simp only
    cases tree.newPlace output.directory (tree.freshName output) with
    | error failure => rfl
    | ok spot =>
      simp only
      cases decryptBytes key data with
      | error error => rfl
      | ok plaintext =>
        simp only
        cases tree.target output with
        | error failure => rfl
        | ok goal => rfl

section Ends

variable {tree : Tree} {file : Path} {stem keyBytes data : Bytes}

theorem Ready.log_of_length_ne (h : Ready tree file stem keyBytes data) (hlen : keyBytes.length ≠ 32) :
    (∃ error, (run tree file).result = .error error) ∧
      (run tree file).log = (course file (file.withFileName stem) (tree.temporary (file.withFileName stem))
        keyBytes.length data.length 0).take 2 := by
  have hcourse := run_course h
  rw [Key.ofBytes?_eq_none.2 hlen] at hcourse
  obtain ⟨hresult, hlog⟩ := Prod.mk.inj hcourse
  exact ⟨⟨_, hresult⟩, hlog⟩

/-- **Where the log is cut** if the key is one: for want of room, in the stream, at the rename, or nowhere -/
theorem Ready.log_cases {key : Key} (h : Ready tree file stem key.toList data) (htree : tree.WellFormed) :
    let output := file.withFileName stem
    let events := course file output (tree.temporary output) key.toList.length data.length
    let attempt := run tree file
    (¬ tree.HasRoom output ∧ (∃ error, attempt.result = .error error) ∧ attempt.log = (events 0).take 3) ∨
    (tree.HasRoom output ∧ (∃ error, decryptBytes key data = .error error) ∧ (∃ error, attempt.result = .error error) ∧
      attempt.log = (events 0).take 4) ∨
    ∃ plaintext, tree.HasRoom output ∧ decryptBytes key data = .ok plaintext ∧
      ((tree.stat output = .ok .directory ∧ (∃ error, attempt.result = .error error) ∧
        attempt.log = (events plaintext.length).take 5) ∨
      (tree.stat output ≠ .ok .directory ∧ (∃ summary, attempt.result = .ok summary) ∧
        attempt.tree.read output = .ok plaintext ∧ attempt.log = events plaintext.length)) := by
  intro output events attempt
  obtain ⟨⟨keyMode, hkey⟩, ⟨mode, hfile⟩, hname⟩ := id h
  obtain ⟨here, hleads, hlen⟩ := leads_output hfile hname
  have hcourse : (attempt.result, attempt.log) = _ := run_course h
  rw [Key.ofBytes?_toList] at hcourse
  simp only at hcourse
  by_cases hroom : tree.HasRoom output
  swap
  · rw [hleads.newPlace_eq_error htree.home hroom] at hcourse
    obtain ⟨hresult, hlog⟩ := Prod.mk.inj hcourse
    exact Or.inl ⟨hroom, ⟨_, hresult⟩, hlog⟩
  obtain ⟨spot, hspot⟩ := hleads.newPlace_eq_ok htree.home hroom
  rw [hspot] at hcourse
  simp only at hcourse
  cases hb : decryptBytes key data with
  | error error =>
    rw [hb] at hcourse
    obtain ⟨hresult, hlog⟩ := Prod.mk.inj hcourse
    exact Or.inr (Or.inl ⟨hroom, ⟨error, rfl⟩, ⟨_, hresult⟩, hlog⟩)
  | ok plaintext =>
    rw [hb] at hcourse
    simp only at hcourse
    refine Or.inr (Or.inr ⟨plaintext, hroom, rfl, ?_⟩)
    rcases hleads.target_cases htree hlen with ⟨hstat, htarget⟩ | ⟨hstat, goal, htarget⟩
    · rw [htarget] at hcourse
      obtain ⟨hresult, hlog⟩ := Prod.mk.inj hcourse
      exact Or.inl ⟨hstat, ⟨_, hresult⟩, hlog⟩
    · rw [htarget] at hcourse
      obtain ⟨hresult, hlog⟩ := Prod.mk.inj hcourse
      have hnamed := run_named hkey hfile hname htree.home hroom
      rw [Key.ofBytes?_toList] at hnamed
      simp only [hb, htarget] at hnamed
      have hread : attempt.tree.read output = .ok plaintext := by
        apply Tree.read_of_stat
        rw [show attempt.tree = _ from congrArg Prod.snd hnamed]
        exact Tree.stat_put_target htarget
      exact Or.inr ⟨hstat, ⟨_, hresult⟩, hread, hlog⟩

/-- a cut log is a prefix of the course and has as many events as were taken -/
theorem length_take_course {n key encrypted plaintext : Nat} {output : Path} {temporary : TemporaryPath} (hn : n ≤ 6) :
    ((course file output temporary key encrypted plaintext).take n).length = n := by
  rw [List.length_take, show (course file output temporary key encrypted plaintext).length = 6 from rfl]
  omega

/-- how many events are logged if the key is one -/
theorem Ready.length_log_of_key {key : Key} (h : Ready tree file stem key.toList data) (htree : tree.WellFormed) :
    let output := file.withFileName stem
    let attempt := run tree file
    attempt.log.length ∈ [3, 4, 5, 6] ∧
    (attempt.log.length = 6 ↔ ∃ summary, attempt.result = .ok summary) ∧
    (attempt.log.length = 3 ↔ ¬ tree.HasRoom output) ∧
    (attempt.log.length = 4 ↔ tree.HasRoom output ∧ ∃ error, decryptBytes key data = .error error) ∧
    (attempt.log.length = 5 ↔ tree.HasRoom output ∧ (∃ plaintext, decryptBytes key data = .ok plaintext) ∧
      tree.stat output = .ok .directory) := by
  intro output attempt
  rcases h.log_cases htree with ⟨hroom, ⟨error, hresult⟩, hlog⟩ | ⟨hroom, ⟨fault, hb⟩, ⟨error, hresult⟩, hlog⟩ |
    ⟨plaintext, hroom, hb, ⟨hstat, ⟨error, hresult⟩, hlog⟩ | ⟨hstat, ⟨summary, hresult⟩, -, hlog⟩⟩
  · have hcut : attempt.log.length = 3 := by rw [hlog, length_take_course (by omega)]
    simp [hcut, attempt, hresult, output, hroom]
  · have hcut : attempt.log.length = 4 := by rw [hlog, length_take_course (by omega)]
    simp [hcut, attempt, hresult, output, hroom, hb]
  · have hcut : attempt.log.length = 5 := by rw [hlog, length_take_course (by omega)]
    simp [hcut, attempt, hresult, output, hroom, hb, hstat]
  · have hcut : attempt.log.length = 6 := by rw [hlog]; rfl
    simp [hcut, attempt, hresult, output, hroom, hb, hstat]

/-- **How many events** a run past its checks logs tells how it ended -/
theorem Ready.length_log (h : Ready tree file stem keyBytes data) (htree : tree.WellFormed) :
    let output := file.withFileName stem
    let attempt := run tree file
    attempt.log.length ∈ [2, 3, 4, 5, 6] ∧
    (attempt.log.length = 6 ↔ ∃ summary, attempt.result = .ok summary) ∧
    (attempt.log.length = 2 ↔ keyBytes.length ≠ 32) ∧
    ∀ key : Key, keyBytes = key.toList →
      (attempt.log.length = 3 ↔ ¬ tree.HasRoom output) ∧
      (attempt.log.length = 4 ↔ tree.HasRoom output ∧ ∃ error, decryptBytes key data = .error error) ∧
      (attempt.log.length = 5 ↔ tree.HasRoom output ∧ (∃ plaintext, decryptBytes key data = .ok plaintext) ∧
        tree.stat output = .ok .directory) := by
  intro output attempt
  cases hk : Key.ofBytes? keyBytes with
  | none =>
    have hlen := Key.ofBytes?_eq_none.1 hk
    obtain ⟨⟨error, hresult⟩, hlog⟩ := h.log_of_length_ne hlen
    have hcut : attempt.log.length = 2 := by rw [hlog, length_take_course (by omega)]
    refine ⟨by simp [hcut], by simp [hcut, attempt, hresult], iff_of_true hcut hlen, fun key hkey => ?_⟩
    rw [hkey] at hlen
    exact absurd Vector.length_toList hlen
  | some key =>
    obtain rfl := Key.ofBytes?_eq_some.1 hk
    obtain ⟨hmem, hsix, hrest⟩ := h.length_log_of_key htree
    have htwo : attempt.log.length ≠ 2 := by
      intro hc
      rw [show (run tree file).log.length = 2 from hc] at hmem
      exact absurd hmem (by decide)
    refine ⟨List.mem_cons_of_mem 2 hmem, hsix, iff_of_false htwo (not_not.2 Vector.length_toList), fun other hother => ?_⟩
    obtain rfl := Vector.toList_inj.1 hother
    exact hrest

/-- without room for the temporary file a run fails after three events -/
theorem Ready.log_no_room {key : Key} (h : Ready tree file stem key.toList data) (htree : tree.WellFormed)
    (hroom : ¬ tree.HasRoom (file.withFileName stem)) :
    (run tree file).log.length = 3 ∧ ∃ error, (run tree file).result = .error error := by
  rcases h.log_cases htree with ⟨-, hresult, hlog⟩ | ⟨hc, -⟩ | ⟨plaintext, hc, -⟩
  · exact ⟨by rw [hlog, length_take_course (by omega)], hresult⟩
  · exact absurd hc hroom
  · exact absurd hc hroom

/-- **What the events tell** is true: they are a part of the course with the lengths of the files -/
theorem Ready.log_prefix (h : Ready tree file stem keyBytes data) (htree : tree.WellFormed) :
    let output := file.withFileName stem
    let attempt := run tree file
    ∃ plaintext : Bytes,
      attempt.log <+: course file output (tree.temporary output) keyBytes.length data.length plaintext.length ∧
      (5 ≤ attempt.log.length → 16 ≤ data.length) ∧
      ((∃ summary, attempt.result = .ok summary) → attempt.tree.read output = .ok plaintext) := by
  intro output attempt
  cases hk : Key.ofBytes? keyBytes with
  | none =>
    obtain ⟨⟨error, hresult⟩, hlog⟩ := h.log_of_length_ne (Key.ofBytes?_eq_none.1 hk)
    refine ⟨[], hlog ▸ List.take_prefix _ _, fun hc => ?_, by simp [attempt, hresult]⟩
    rw [hlog, length_take_course (by omega)] at hc
    omega
  | some key =>
    obtain rfl := Key.ofBytes?_eq_some.1 hk
    have hlong : ∀ plaintext, decryptBytes key data = .ok plaintext → 16 ≤ data.length := by
      intro plaintext hb
      by_contra hc
      rw [decryptBytes_short key (not_le.1 hc)] at hb
      cases hb
    rcases h.log_cases htree with ⟨-, ⟨error, hresult⟩, hlog⟩ | ⟨-, -, ⟨error, hresult⟩, hlog⟩ |
      ⟨plaintext, -, hb, ⟨-, ⟨error, hresult⟩, hlog⟩ | ⟨-, -, hread, hlog⟩⟩
    · refine ⟨[], hlog ▸ List.take_prefix _ _, fun hc => ?_, by simp [attempt, hresult]⟩
      rw [hlog, length_take_course (by omega)] at hc
      omega
    · refine ⟨[], hlog ▸ List.take_prefix _ _, fun hc => ?_, by simp [attempt, hresult]⟩
      rw [hlog, length_take_course (by omega)] at hc
      omega
    · exact ⟨plaintext, hlog ▸ List.take_prefix _ _, fun _ => hlong plaintext hb, by simp [attempt, hresult]⟩
    · exact ⟨plaintext, hlog ▸ List.prefix_rfl, fun _ => hlong plaintext hb, fun _ => hread⟩

end Ends

/-! ## A path as long as one likes -/

/-- a directory with an encrypted file and its key -/
def drawer (key : Key) (iv : Block) (plaintext : Bytes) : Tree :=
  ⟨[], [([ascii ['d']], .directory),
    ([ascii ['d'], ascii ['x', '.', 'a', 'e', 's']], .file 0o644 (encryptBytes key iv plaintext)),
    ([ascii ['d'], ascii ['x', '.', 'a', 'e', 's', '.', 'k', 'e', 'y']], .file 0o600 key.toList)]⟩

/-- a path to the encrypted file in `drawer`, with as many slashes as one likes before the directory's name -/
def farFile (n : Nat) : Path :=
  ⟨(farOutput n).bytes ++ extension⟩

theorem splitSlash_farFile (n : Nat) : Path.splitSlash (farFile n).bytes =
    Path.dot :: List.replicate n [] ++ [ascii ['d']] ++ [ascii ['x'] ++ extension] :=
  Path.splitSlash_append (splitSlash_farOutput n) (by decide)

theorem named_farFile (n : Nat) : Named (farFile n) (ascii ['x']) := by
  refine ⟨by decide, ?_⟩
  have hpieces : Path.splitSlash (farFile n).bytes =
      Path.dot :: (List.replicate n [] ++ [ascii ['d'], ascii ['x'] ++ extension]) := by
    rw [splitSlash_farFile, List.append_assoc]
    rfl
  rw [Path.components, Path.parts, hpieces, Path.partsFrom_silent 0 (Or.inr rfl), partsFrom_replicate, List.map_append,
    List.getLast?_append]
  rfl

theorem withFileName_farFile (n : Nat) : (farFile n).withFileName (ascii ['x']) = farOutput n := by
  obtain ⟨-, front, silent, hlead, -, hsilent, hout⟩ := Path.withFileName_pieces (named_farFile n).2 (splitSlash_farFile n)
    (by decide) (List.prefix_append (ascii ['x']) extension)
  -- the directory's name is not silent, so nothing is dropped after it
  have hnil : silent = [] := by
    rcases List.eq_nil_or_concat silent with hs | ⟨more, piece, hs⟩
    · exact hs
    · rw [hs, List.concat_eq_append, ← List.append_assoc] at hlead
      have hpiece := List.singleton_inj.1 (List.append_inj' hlead rfl).2
      have hquiet := hsilent piece (by rw [hs]; simp)
      rw [← hpiece] at hquiet
      exact absurd hquiet (by decide)
  rw [hnil, List.append_nil] at hlead
  rw [← hlead, ← splitSlash_farOutput] at hout
  have hbytes := congrArg Path.joinSlash hout
  rw [Path.joinSlash_splitSlash, Path.joinSlash_splitSlash] at hbytes
  exact congrArg Path.mk hbytes

theorem parse_farFile (n : Nat) :
    Arguments.parse [Bytes.ofText programName, (farFile n).bytes] = .ok ⟨farFile n, .normal⟩ := rfl

section Drawer

variable (key : Key) (iv : Block) (plaintext : Bytes)

theorem drawer_wellFormed : (drawer key iv plaintext).WellFormed := by
  refine ⟨rfl, fun entry hentry => ?_⟩
  rcases List.mem_cons.1 hentry with rfl | hentry
  · rfl
  · rcases List.mem_cons.1 hentry with rfl | hentry
    · rfl
    · rw [List.mem_singleton.1 hentry]
      rfl

theorem ready_farFile {n : Nat} (h : n ≤ 4082) :
    Ready (drawer key iv plaintext) (farFile n) (ascii ['x']) key.toList (encryptBytes key iv plaintext) := by
  have hfile : (drawer key iv plaintext).Leads (farFile n) [ascii ['d']] (ascii ['x'] ++ extension) :=
    leads_far rfl rfl (by decide) (by decide) (by rw [show extension.length = 4 from rfl]; omega)
  have hkey : (drawer key iv plaintext).Leads (keyPath (farFile n)) [ascii ['d']]
      (ascii ['x'] ++ (extension ++ keySuffix)) := by
    rw [keyPath, farFile, List.append_assoc]
    exact leads_far rfl rfl (by decide) (by decide) (by rw [show (extension ++ keySuffix).length = 8 from rfl]; omega)
  refine ⟨⟨0o600, ?_⟩, ⟨0o644, ?_⟩, named_farFile n⟩
  · rw [hkey.stat_eq (by decide), Tree.climb_of_ne (by decide) (by decide)]
    rfl
  · rw [hfile.stat_eq (by decide), Tree.climb_of_ne (by decide) (by decide)]
    rfl

/-- nothing stands in the way of a run -/
theorem run_drawer : ∃ summary, (run (drawer key iv plaintext) (farFile 0)).result = .ok summary := by
  have hroom : (drawer key iv plaintext).HasRoom (farOutput 0) := Nat.le_of_ble_eq_true rfl
  have hopen : decryptBytes key (encryptBytes key iv plaintext) = .ok plaintext := decryptBytes_eq_ok.2 ⟨iv, rfl⟩
  have hstat : (drawer key iv plaintext).stat (farOutput 0) ≠ .ok .directory := by
    rw [show (drawer key iv plaintext).stat (farOutput 0) = .error .noEntry from rfl]
    exact nofun
  have hcases := (ready_farFile key iv plaintext (Nat.zero_le 4082)).log_cases (drawer_wellFormed key iv plaintext)
  rw [withFileName_farFile, hopen] at hcases
  rcases hcases with ⟨hc, -⟩ | ⟨-, ⟨error, hc⟩, -⟩ | ⟨opened, -, -, ⟨hc, -⟩ | ⟨-, hresult, -⟩⟩
  · exact absurd hroom hc
  · cases hc
  · exact absurd hc hstat
  · exact hresult

end Drawer

/-! ## The whole log -/

/-- **The log is one course, cut where the run ended.** Before a filter selects from it, the log of the program is a
prefix of the six events of a whole run. It is empty exactly if a check on the files or on the name failed, has two events
exactly if the key has another length than thirty-two bytes, three exactly if the path of a temporary file beside the
output is too long, four exactly if the stream failed, five exactly if only the rename did, because a directory is at the
output path, and six exactly if the program exits with success; it has no other length. The lengths that it tells are
those of the key file, of the encrypted file, of the ciphertext in it, and in the end of the output file. -/
theorem log_is_cut {tree : Tree} (htree : tree.WellFormed) {line : List Bytes} {arguments : Arguments}
    (hline : Arguments.parse line = .ok arguments) (setting : Option String) :
    let file := arguments.file
    let report := program tree setting line
    let log := (run tree file).log
    report.log = log.filter (chosenFilter setting arguments.verbosity).allows ∧
    log.map Event.message <+: ["resolved paths", "loaded key file", "opened encrypted file",
      "writing plaintext to temporary file", "ciphertext stream decrypted", "Decryption successful"] ∧
    log.length ∈ [0, 2, 3, 4, 5, 6] ∧
    (log.length = 0 ↔ ¬ tree.isFile (keyPath file) ∨ ¬ tree.isFile file ∨ ∀ stem, ¬ Named file stem) ∧
    (log.length = 6 ↔ report.exitCode = 0) ∧
    ∀ stem keyBytes data, Ready tree file stem keyBytes data →
      let output := file.withFileName stem
      (log.length = 2 ↔ keyBytes.length ≠ 32) ∧
      (∀ key : Key, keyBytes = key.toList →
        (log.length = 3 ↔ ¬ tree.HasRoom output) ∧
        (log.length = 4 ↔ tree.HasRoom output ∧ ∃ error, decryptBytes key data = .error error) ∧
        (log.length = 5 ↔ tree.HasRoom output ∧ (∃ plaintext, decryptBytes key data = .ok plaintext) ∧
          tree.stat output = .ok .directory)) ∧
      ∃ temporary, ∃ plaintext : Bytes,
        log <+: course file output temporary keyBytes.length data.length plaintext.length ∧
        (5 ≤ log.length → 16 ≤ data.length) ∧
        (report.exitCode = 0 → report.tree.read output = .ok plaintext) := by
  intro file report log
  have hreport : report = _ := program_of_parse hline tree setting
  have hexit : report.exitCode = 0 ↔ ∃ summary, (run tree file).result = .ok summary := by
    rw [hreport, Attempt.report_exitCode]
  have hlog : report.log = log.filter (chosenFilter setting arguments.verbosity).allows := by
    rw [hreport, Attempt.report_log]
  have hchecks : (∃ stem keyBytes data, Ready tree file stem keyBytes data) ↔ ¬ (¬ tree.isFile (keyPath file) ∨
      ¬ tree.isFile file ∨ ∀ stem, ¬ Named file stem) := by
    rw [exists_ready_iff, not_or, not_or, not_not, not_not, not_forall]
    simp only [not_not]
  by_cases hready : ∃ stem keyBytes data, Ready tree file stem keyBytes data
  · obtain ⟨stem, keyBytes, data, h⟩ := hready
    obtain ⟨hmem, hsix, -⟩ := h.length_log htree
    obtain ⟨plaintext, hprefix, -⟩ := h.log_prefix htree
    have hpos : log.length ≠ 0 := by
      intro hc
      rw [show (run tree file).log.length = 0 from hc] at hmem
      exact absurd hmem (by decide)
    refine ⟨hlog, hprefix.map Event.message, List.mem_cons_of_mem 0 hmem,
      iff_of_false hpos (hchecks.1 ⟨stem, keyBytes, data, h⟩), hsix.trans hexit.symm, fun stem keyBytes data h => ?_⟩
    obtain ⟨-, -, htwo, hkeys⟩ := h.length_log htree
    obtain ⟨plaintext, hprefix, hlong, hread⟩ := h.log_prefix htree
    refine ⟨htwo, hkeys, tree.temporary (file.withFileName stem), plaintext, hprefix, hlong, fun hc => ?_⟩
    rw [hreport, Attempt.report_tree]
    exact hread (hexit.1 hc)
  · obtain ⟨hempty, hresult⟩ := run_not_ready hready
    have hlogEmpty : log = [] := hempty
    have hfail : ¬ report.exitCode = 0 := by
      rw [hexit, hresult]
      simp
    refine ⟨hlog, by simp [hlogEmpty], by simp [hlogEmpty], iff_of_true (by simp [hlogEmpty]) ?_,
      iff_of_false (by simp [hlogEmpty]) hfail, fun stem keyBytes data h => absurd ⟨stem, keyBytes, data, h⟩ hready⟩
    exact not_not.1 fun hc => hready (hchecks.2 hc)

theorem log_is_cut_drawer :
    let tree := drawer (.replicate 32 0) (.replicate 16 0) (ascii ['h', 'i'])
    let line : List Bytes := [Bytes.ofText programName, (farFile 0).bytes]
    tree.WellFormed ∧ Arguments.parse line = .ok ⟨farFile 0, .normal⟩ ∧ (program tree none line).exitCode = 0 ∧
    (run tree (farFile 0)).log.length = 6 ∧
    (program tree none line).log = (run tree (farFile 0)).log.filter (LogFilter.upTo .info).allows := by
  intro tree line
  have htree : tree.WellFormed := drawer_wellFormed _ _ _
  obtain ⟨hlog, -, -, -, hsix, -⟩ := log_is_cut htree (parse_farFile 0) none
  have hexit : (program tree none line).exitCode = 0 := by
    rw [program_of_parse (parse_farFile 0), Attempt.report_exitCode]
    exact run_drawer _ _ _
  exact ⟨htree, parse_farFile 0, hexit, hsix.2 hexit, hlog⟩

/-- **Without room for the temporary file** the log is cut after three events: the path is short enough for the encrypted
file and its key to be found, but the path of a temporary file beside the output is longer -/
theorem log_farFile :
    let key : Key := .replicate 32 0
    let tree := drawer key (.replicate 16 0) (ascii ['h', 'i'])
    let file := farFile 4082
    let line : List Bytes := [Bytes.ofText programName, file.bytes]
    tree.WellFormed ∧ Arguments.parse line = .ok ⟨file, .normal⟩ ∧
    (∃ data, Ready tree file (ascii ['x']) key.toList data ∧ decryptBytes key data = .ok (ascii ['h', 'i'])) ∧
    (run tree file).log.length = 3 ∧ (program tree none line).exitCode = 1 := by
  intro key tree file line
  have htree : tree.WellFormed := drawer_wellFormed _ _ _
  have hready := ready_farFile key (.replicate 16 0) (ascii ['h', 'i']) (le_refl 4082)
  have hroom : ¬ tree.HasRoom (file.withFileName (ascii ['x'])) := by
    rw [withFileName_farFile]
    apply Tree.not_hasRoom
    rw [directory_farOutput, List.length_take, length_farOutput, Tree.longestPath]
    omega
  have hparse : Arguments.parse line = .ok ⟨file, .normal⟩ := parse_farFile 4082
  obtain ⟨hlength, error, hresult⟩ := hready.log_no_room htree hroom
  refine ⟨htree, hparse, ⟨_, hready, decryptBytes_eq_ok.2 ⟨_, rfl⟩⟩, hlength, ?_⟩
  rw [program_of_parse hparse]
  exact Attempt.report_exitCode_of_error hresult

end CbcFile
