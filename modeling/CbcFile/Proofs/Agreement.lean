/-
The ways to decrypt a file agree. A file decrypts into another file, into memory, and as bytes in memory; one definition
says what the bytes come to, and the ways differ only in where the plaintext goes and in how a fault is told.

- `decryptFile_eq`: a file in memory is its bytes in memory, with faults named after the file;
- `decrypt_no_room`: beside an output whose temporary file would have too long a path, no attempt succeeds.

Results:
- `decrypt_agrees`: the three ways succeed and fail together, with one plaintext or one error.
- `decrypt_farOutput`: the room for the temporary file is a condition: an output that a file can be renamed to, and a
  file that decrypts in memory, but not into that output.
-/
import Mathlib.Tactic
import CbcFile.Proofs.Run

namespace CbcFile

/-! ## Two ways -/

/-- **A file in memory** is its bytes in memory, with faults named after the file -/
theorem decryptFile_eq {tree : Tree} {path : Path} {mode : Nat} {data : Bytes}
    (h : tree.stat path = .ok (.file mode data)) (key : Key) :
    decryptFile tree path key = (decryptBytes key data).mapError (.inFile path) := by
  rw [decryptFile, openEncrypted_eq_ok.2 h]
  simp only [stream_file]
  unfold verdict written
  cases decryptBytes key data with
  | error error => rfl
  | ok plaintext => simp [Except.map, Except.mapError]

theorem decrypt_no_room {tree : Tree} {keyFile encrypted output : Path} {key : Key} {node : Node} {goal : Location}
    (hkey : tree.read keyFile = .ok key.toList) (hfile : tree.stat encrypted = .ok node)
    (hhome : tree.find tree.home = some .directory) (hgoal : tree.target output = .ok goal)
    (hroom : ¬ tree.HasRoom output) :
    ((decrypt tree keyFile encrypted output).result, (decrypt tree keyFile encrypted output).tree) =
      (.error (.io (.createTemporary output.directory) (IoFailure.nameTooLong.making (tree.temporary output))),
        tree) := by
  obtain ⟨here, name, hleads, -⟩ := Tree.target_eq_ok.1 hgoal
  have hload : loadKey tree keyFile = (.ok key, [.loadedKey keyFile key.toList.length]) := by
    simp only [loadKey, hkey, Key.ofBytes_toList]
  rw [decrypt, decryptUsing, hload, openEncrypted_eq_ok.2 hfile]
  simp only [hleads.newPlace_eq_error hhome hroom]
  rfl

/-- **The ways to decrypt agree.** Let the key file hold a key, the encrypted file some bytes, and let the output be a
path that a file can be renamed to. The file decrypts into memory exactly if its bytes do, to the same plaintext; if they
are too few for an initial vector, the error tells their number, and if the cipher refuses them, its fault is told once,
after the name of the file. If there is room for the path of a temporary file beside the output, the file decrypts into
the output exactly if it does into memory: the output holds the same plaintext, or the error is the same. If there is
not, the temporary file cannot be made, whatever the bytes are, and the error tells its path: the directory of the
output, told from the root, and a name there. -/
theorem decrypt_agrees {tree : Tree} {keyFile encrypted output : Path} {key : Key} {mode : Nat} {bytes : Bytes}
    {goal : Location} (htree : tree.WellFormed) (hkey : tree.read keyFile = .ok key.toList)
    (hfile : tree.stat encrypted = .ok (.file mode bytes)) (hgoal : tree.target output = .ok goal) :
    let attempt := decrypt tree keyFile encrypted output
    let inMemory := decryptFile tree encrypted key
    (match decryptBytes key bytes with
      | .ok plaintext => inMemory = .ok plaintext
      | .error (.inputTooSmall length) => length = bytes.length ∧ inMemory = .error (.inputTooSmall length)
      | .error (.cipher fault) => inMemory = .error (.cipher (.inFile encrypted fault)) ∧
          CipherFault.text (.inFile encrypted fault) = s!"could not decrypt file {encrypted.display}: {fault.text}"
      | .error _ => False) ∧
    (tree.HasRoom output →
      match decryptBytes key bytes with
      | .ok plaintext => attempt.result = .ok ⟨output, bytes.length, plaintext.length⟩ ∧
          attempt.tree.read output = .ok plaintext
      | .error _ => ∃ error, attempt.result = .error error ∧ inMemory = .error error) ∧
    (¬ tree.HasRoom output → attempt.tree = tree ∧
      (∃ name, attempt.result = .error (.io (.createTemporary output.directory)
        ⟨.invalidFilename, "File name too long (os error 36)", some ⟨tree.fromRoot output.directory, name⟩⟩)) ∧
      Activity.text (.createTemporary output.directory) =
        s!"failed to create temporary file in {output.directory.display}") := by
  intro attempt inMemory
  have hmemory : inMemory = (decryptBytes key bytes).mapError (.inFile encrypted) := decryptFile_eq hfile key
  refine ⟨?_, fun hroom => ?_, fun hroom => ?_⟩
  · rw [hmemory]
    cases hb : decryptBytes key bytes with
    | ok plaintext => rfl
    | error error =>
      rcases decryptBytes_error hb with rfl | ⟨fault, rfl⟩
      · exact ⟨rfl, rfl⟩
      · exact ⟨rfl, rfl⟩
  · obtain ⟨here, name, hleads, -⟩ := Tree.target_eq_ok.1 hgoal
    obtain ⟨spot, hspot⟩ := hleads.newPlace_eq_ok htree.home hroom
    have hattempt := decrypt_files hkey hfile hspot
    rw [Key.ofBytes?_toList] at hattempt
    rw [hmemory]
    cases hb : decryptBytes key bytes with
    | error error =>
      simp only [hb] at hattempt
      exact ⟨_, congrArg Prod.fst hattempt, rfl⟩
    | ok plaintext =>
      simp only [hb, hgoal] at hattempt
      have hput : attempt.tree = tree.put goal (.file (outputMode tree output) plaintext) := congrArg Prod.snd hattempt
      refine ⟨congrArg Prod.fst hattempt, ?_⟩
      rw [hput]
      exact Tree.read_of_stat (Tree.stat_put_target hgoal)
  · have hattempt := decrypt_no_room hkey hfile htree.home hgoal hroom
    exact ⟨congrArg Prod.snd hattempt, ⟨tree.freshName output, congrArg Prod.fst hattempt⟩, rfl⟩

/-- a key, an encrypted file and an empty directory -/
def shelf : Tree :=
  ⟨[], [([ascii ['d']], .directory),
    ([ascii ['e']], .file 0o644 (encryptBytes (.replicate 32 0) (.replicate 16 0) (ascii ['h', 'i']))),
    ([ascii ['k']], .file 0o600 (Vector.replicate 32 0).toList)]⟩

theorem shelf_wellFormed : shelf.WellFormed := by
  refine ⟨rfl, fun entry hentry => ?_⟩
  rcases List.mem_cons.1 hentry with rfl | hentry
  · rfl
  · rcases List.mem_cons.1 hentry with rfl | hentry
    · rfl
    · rw [List.mem_singleton.1 hentry]
      rfl

theorem decrypt_agrees_shelf :
    let key : Key := .replicate 32 0
    let keyFile : Path := ⟨ascii ['k']⟩
    let encrypted : Path := ⟨ascii ['e']⟩
    let output : Path := ⟨ascii ['d', '/', 'x']⟩
    shelf.WellFormed ∧ shelf.read keyFile = .ok key.toList ∧
    (∃ bytes, shelf.stat encrypted = .ok (.file 0o644 bytes)) ∧
    shelf.target output = .ok [ascii ['d'], ascii ['x']] ∧
    (decrypt shelf keyFile encrypted output).tree.read output = .ok (ascii ['h', 'i']) ∧
    decryptFile shelf encrypted key = .ok (ascii ['h', 'i']) := by
  intro key keyFile encrypted output
  have hread : shelf.read keyFile = .ok key.toList := rfl
  have hstat : shelf.stat encrypted =
      .ok (.file 0o644 (encryptBytes key (.replicate 16 0) (ascii ['h', 'i']))) := rfl
  have hgoal : shelf.target output = .ok [ascii ['d'], ascii ['x']] := rfl
  have hopen : decryptBytes key (encryptBytes key (.replicate 16 0) (ascii ['h', 'i'])) = .ok (ascii ['h', 'i']) :=
    decryptBytes_eq_ok.2 ⟨_, rfl⟩
  have hroom : shelf.HasRoom output := by
    rw [Tree.HasRoom]
    decide
  obtain ⟨hmemory, hfile, -⟩ := decrypt_agrees shelf_wellFormed hread hstat hgoal
  have hwritten := hfile hroom
  rw [hopen] at hmemory hwritten
  exact ⟨shelf_wellFormed, hread, ⟨_, hstat⟩, hgoal, hwritten.2, hmemory⟩

/-! ## At the limit -/

namespace Tree

theorem length_join (directory : Path) (name : Bytes) :
    directory.bytes.length + name.length ≤ (directory.join name).bytes.length := by
  unfold Path.join
  split_ifs with hnil hslash
  · simp [hnil]
  · simp
  · rw [List.length_append, List.length_cons]
    omega

/-- a directory whose own path is almost too long has no room for a temporary file -/
theorem not_hasRoom {tree : Tree} {output : Path} (h : longestPath < output.directory.bytes.length + 12) :
    ¬ tree.HasRoom output := by
  have hroot : output.directory.bytes.length ≤ (tree.fromRoot output.directory).bytes.length := by
    unfold fromRoot
    split_ifs with habs
    · exact le_refl _
    · exact (Nat.le_add_left _ _).trans (length_join _ _)
  have hname : 12 ≤ (temporaryName 0).length := by decide
  have hjoin := length_join (tree.fromRoot output.directory) (temporaryName 0)
  rw [HasRoom]
  omega

end Tree

/-- a path into the directory of `shelf`, with as many slashes as one likes before the directory's name -/
def farOutput (n : Nat) : Path :=
  ⟨Path.dot ++ Path.slash :: (List.replicate n Path.slash ++ ascii ['d', '/', 'x'])⟩

theorem splitSlash_replicate (n : Nat) (rest : Bytes) :
    Path.splitSlash (List.replicate n Path.slash ++ rest) = List.replicate n [] ++ Path.splitSlash rest := by
  induction n with
  | zero => rfl
  | succ n ih => rw [List.replicate_succ, List.cons_append, Path.splitSlash, if_pos rfl, ih]; rfl

theorem splitSlash_farOutput (n : Nat) :
    Path.splitSlash (farOutput n).bytes = Path.dot :: List.replicate n [] ++ [ascii ['d']] ++ [ascii ['x']] := by
  have hrest : Path.splitSlash (ascii ['d', '/', 'x']) = [ascii ['d'], ascii ['x']] := by decide
  rw [farOutput, Path.splitSlash_append_slash (by decide), splitSlash_replicate, hrest]
  simp

theorem partsFrom_replicate (n start : Nat) (rest : List Bytes) :
    Path.partsFrom start (List.replicate n [] ++ rest) = Path.partsFrom (start + n) rest := by
  induction n generalizing start with
  | zero => rfl
  | succ n ih =>
    rw [List.replicate_succ, List.cons_append, Path.partsFrom_silent start (Or.inl rfl), ih]
    congr 1
    rw [List.length_nil]
    omega

theorem parts_farOutput (n : Nat) :
    (farOutput n).parts = [⟨.here, 1⟩, ⟨.name (ascii ['d']), n + 3⟩, ⟨.name (ascii ['x']), n + 5⟩] := by
  have hpieces : Path.splitSlash (farOutput n).bytes = Path.dot :: (List.replicate n [] ++ [ascii ['d'], ascii ['x']]) := by
    rw [splitSlash_farOutput, List.append_assoc]
    rfl
  have hlead : (farOutput n).leadingPart = [⟨.here, 1⟩] := by
    rw [Path.leadingPart, hpieces]
    rfl
  have hstop : 0 + Path.dot.length + 1 + n = n + 2 := by
    rw [show Path.dot.length = 1 from rfl]
    omega
  rw [Path.parts, hlead, hpieces, Path.partsFrom_silent 0 (Or.inr rfl), partsFrom_replicate, hstop]
  rfl

theorem directory_farOutput (n : Nat) : (farOutput n).directory = ⟨(farOutput n).bytes.take (n + 3)⟩ := by
  have hparent : (farOutput n).parent? = some ⟨(farOutput n).bytes.take (n + 3)⟩ := by
    rw [Path.parent?, parts_farOutput]
    rfl
  rw [Path.directory, hparent]
  exact if_neg (List.cons_ne_nil _ _)

theorem length_farOutput (n : Nat) : (farOutput n).bytes.length = n + 5 := by
  simp [farOutput, Path.dot, ascii]

/-- the slashes lead nowhere: with or without a suffix, the path leads into the directory -/
theorem leads_far {tree : Tree} (hhome : tree.home = []) (hdir : tree.find [ascii ['d']] = some .directory) {n : Nat}
    {suffix : Bytes} (hslash : Path.slash ∉ suffix) (hzero : 0 ∉ suffix) (hlen : n + 5 + suffix.length ≤ 4095) :
    tree.Leads ⟨(farOutput n).bytes ++ suffix⟩ [ascii ['d']] (ascii ['x'] ++ suffix) := by
  refine Tree.leads_of_pieces (Path.splitSlash_append (splitSlash_farOutput n) hslash) (by simp [ascii]) ?_ ?_ ?_ hdir
  · have hdot : 0 ∉ Path.dot := by decide
    have hne : 0 ≠ Path.slash := by decide
    have hnames : 0 ∉ ascii ['d', '/', 'x'] := by decide
    simp [farOutput, hdot, hne, hnames, hzero]
  · rw [List.length_append, length_farOutput, Tree.longestPath]
    exact hlen
  · have hstart : tree.start ⟨(farOutput n).bytes ++ suffix⟩ = [] := hhome
    have hsteps : (Path.dot :: List.replicate n [] ++ [ascii ['d']]).filter (· ≠ []) = [Path.dot, ascii ['d']] := by
      simp [Path.dot, ascii]
    have hdot : tree.step [] Path.dot = .ok [] := rfl
    have hname : tree.step [] (ascii ['d']) = .ok [ascii ['d']] := by
      rw [Tree.step_name rfl (by decide) (by decide) (by decide), List.nil_append, hdir]
      rfl
    rw [hstart, hsteps, Tree.walk, hdot]
    simp only
    rw [Tree.walk, hname]
    rfl

theorem leads_farOutput {n : Nat} (h : n ≤ 4090) : shelf.Leads (farOutput n) [ascii ['d']] (ascii ['x']) := by
  have hleads : shelf.Leads ⟨(farOutput n).bytes ++ []⟩ [ascii ['d']] (ascii ['x'] ++ []) :=
    leads_far rfl rfl List.not_mem_nil List.not_mem_nil (by rw [List.length_nil]; omega)
  rwa [List.append_nil, List.append_nil] at hleads

/-- **Without room for the temporary file** the ways do not agree: the output is a path of 4095 bytes that a file can be
renamed to, the file decrypts into memory, but not into the output -/
theorem decrypt_farOutput :
    let key : Key := .replicate 32 0
    let keyFile : Path := ⟨ascii ['k']⟩
    let encrypted : Path := ⟨ascii ['e']⟩
    let bytes := encryptBytes key (.replicate 16 0) (ascii ['h', 'i'])
    let output := farOutput 4090
    shelf.WellFormed ∧ shelf.read keyFile = .ok key.toList ∧ shelf.stat encrypted = .ok (.file 0o644 bytes) ∧
    shelf.target output = .ok [ascii ['d'], ascii ['x']] ∧
    decryptBytes key bytes = .ok (ascii ['h', 'i']) ∧ decryptFile shelf encrypted key = .ok (ascii ['h', 'i']) ∧
    ∃ temporary, (decrypt shelf keyFile encrypted output).result =
      .error (.io (.createTemporary output.directory) (IoFailure.nameTooLong.making temporary)) := by
  intro key keyFile encrypted bytes output
  have hread : shelf.read keyFile = .ok key.toList := rfl
  have hstat : shelf.stat encrypted = .ok (.file 0o644 bytes) := rfl
  have hopen : decryptBytes key bytes = .ok (ascii ['h', 'i']) := decryptBytes_eq_ok.2 ⟨_, rfl⟩
  have hgoal : shelf.target output = .ok [ascii ['d'], ascii ['x']] := by
    rw [(leads_farOutput (le_refl 4090)).target_eq (by decide)]
    rfl
  -- the slashes lead nowhere, but they count: the directory's path is two bytes shorter than the output's
  have hroom : ¬ shelf.HasRoom output := by
    apply Tree.not_hasRoom
    rw [directory_farOutput, List.length_take, length_farOutput, Tree.longestPath]
    omega
  have hattempt := decrypt_no_room hread hstat shelf_wellFormed.home hgoal hroom
  refine ⟨shelf_wellFormed, hread, hstat, hgoal, hopen, ?_, _, (Prod.mk.inj hattempt).1⟩
  rw [decryptFile_eq hstat, hopen]
  rfl

end CbcFile
