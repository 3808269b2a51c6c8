/-
Decryption of files, stage by stage and as a whole.

The temporary file cannot be seen from outside: `decryptThrough_eq` says what an attempt leaves without mentioning it. So
an attempt either fails and leaves the tree as it was, or puts one file in one place (`decrypt_cases`).

Results:
- `decryptUsing_any`: it makes no difference which name the temporary file has;
- `decrypt_all_or_nothing`: a failed attempt changes nothing; a successful one changes only the entry that the output
  path names, which then holds the plaintext of what the encrypted file held before, under the key from before.
-/
import Mathlib.Tactic
import CbcFile.FileDecrypt
import CbcFile.Proofs.Stream.Chopping
import CbcFile.Proofs.Temporary

namespace CbcFile

/-! ## Stages -/

theorem Key.ofBytes?_eq_some {bytes : Bytes} {key : Key} : Key.ofBytes? bytes = some key ↔ bytes = key.toList := by
  constructor
  · intro h
    unfold Key.ofBytes? at h
    split at h
    · cases h
      rfl
    · cases h
  · rintro rfl
    exact Key.ofBytes?_toList key

theorem Key.ofBytes_eq_ok {bytes : Bytes} {key : Key} : Key.ofBytes bytes = .ok key ↔ bytes = key.toList := by
  rw [← Key.ofBytes?_eq_some, Key.ofBytes]
  cases Key.ofBytes? bytes <;> simp

theorem loadKey_eq_ok {tree : Tree} {path : Path} {key : Key} :
    (loadKey tree path).1 = .ok key ↔ tree.read path = .ok key.toList := by
  unfold loadKey
  cases tree.read path with
  | error failure => simp
  | ok bytes => simp [Key.ofBytes_eq_ok]

theorem openEncrypted_eq_ok {tree : Tree} {path : Path} {node : Node} :
    openEncrypted tree path = .ok node ↔ tree.stat path = .ok node := by
  unfold openEncrypted
  cases tree.stat path <;> simp

/-- a new file's place is its name in a directory -/
theorem newPlace_eq_ok {tree : Tree} {directory : Path} {name : Bytes} {spot : Location}
    (h : tree.newPlace directory name = .ok spot) : ∃ place, spot = place ++ [name] := by
  unfold Tree.newPlace at h
  split_ifs at h
  cases hd : tree.directoryAt directory with
  | error failure => rw [hd] at h; cases h
  | ok place => rw [hd] at h; exact ⟨place, (Except.ok.inj h).symm⟩

/-- whether a new file can be made does not depend on its name -/
theorem newPlace_error {tree : Tree} {directory : Path} {name : Bytes} {failure : IoFailure}
    (h : tree.newPlace directory name = .error failure) (other : Bytes) :
    tree.newPlace directory other = .error failure := by
  unfold Tree.newPlace at h ⊢
  split_ifs at h ⊢
  · exact h
  · exact h
  · cases hd : tree.directoryAt directory with
    | error found => rw [hd] at h; exact h
    | ok place => rw [hd] at h; cases h

/-! ## The stream of a file -/

theorem stream_file (key : Key) (mode : Nat) (data : Bytes) :
    decryptStream key (Node.file mode data).source .collecting =
      ⟨verdict key none data, (Source.ofBytes data).beyond, ⟨[], (#[] : Array UInt8) ++ written key none data⟩⟩ := by
  rw [Sink.collecting, Node.source, decryptStream_verdict, Source.stop?_ofBytes, Source.lead_ofBytes]

theorem stream_directory (key : Key) :
    (decryptStream key Node.directory.source .collecting).result = .error (.io .readIv .isADirectory) := by
  rw [Sink.collecting, Node.source, decryptStream_verdict]
  rfl

/-- a stream that succeeds is that of a file whose bytes decrypt -/
theorem stream_eq_ok {key : Key} {node : Node} {lengths : Lengths}
    (h : (decryptStream key node.source .collecting).result = .ok lengths) :
    ∃ mode data plaintext, node = .file mode data ∧ decryptBytes key data = .ok plaintext ∧
      lengths = ⟨data.length - 16, plaintext.length⟩ ∧
      (decryptStream key node.source .collecting).sink.received.toList = plaintext := by
  cases node with
  | directory => rw [stream_directory] at h; cases h
  | file mode data =>
    rw [stream_file] at h ⊢
    have hv : verdict key none data = .ok lengths := h
    obtain ⟨-, plaintext, hb, hl⟩ := verdict_eq_ok.1 hv
    exact ⟨mode, data, plaintext, rfl, hb, hl, by simp [written, hb]⟩

/-! ## Without the temporary file -/

section Through

variable {tree : Tree} {output : Path} {name : Bytes} {directory : Location}

/-- a temporary file does not change which mode the output gets -/
theorem outputMode_put_new {goal : Location} {mode : Nat} {data : Bytes} (h : tree.New output name)
    (ht : tree.target output = .ok goal) :
    outputMode (tree.put (directory ++ [name]) (.file mode data)) output = outputMode tree output := by
  have ht' : (tree.put (directory ++ [name]) (.file mode data)).target output = .ok goal := by
    rw [Tree.target_put_new h, ht]
  rw [outputMode, outputMode, Tree.stat_of_target ht, Tree.stat_of_target ht',
    Tree.find_put_of_ne _ (Tree.target_ne_new h ht)]

theorem replaceOutput_eq (h : tree.New output name) (plaintext : Bytes) :
    replaceOutput (tree.put (directory ++ [name]) (.file privateMode plaintext)) (directory ++ [name]) plaintext output =
      match tree.target output with
      | .error failure => .error failure
      | .ok goal => .ok (tree.put goal (.file (outputMode tree output) plaintext)) := by
  rw [replaceOutput, Tree.put_put, Tree.rename_new h]
  cases ht : tree.target output with
  | error failure => rfl
  | ok goal => simp only [outputMode_put_new h ht]

/-- **The stages after the temporary file has been made**, told without it -/
theorem decryptThrough_eq (h : tree.New output name) (key : Key) (encrypted : Path) (node : Node) :
    decryptThrough tree (directory ++ [name]) key encrypted node output =
      match (decryptStream key node.source .collecting).result with
      | .error error => ⟨.error (error.inFile encrypted), [], tree⟩
      | .ok lengths =>
        match tree.target output with
        | .error failure => ⟨.error (.io (.writeOutput output) failure), [.streamDecrypted lengths], tree⟩
        | .ok goal => ⟨.ok ⟨output, node.length, lengths.plaintext⟩, [.streamDecrypted lengths],
            tree.put goal (.file (outputMode tree output)
              (decryptStream key node.source .collecting).sink.received.toList)⟩ := by
  unfold decryptThrough
  simp only [replaceOutput_eq h, Tree.erase_put_new h]
  cases (decryptStream key node.source .collecting).result with
  | error error => rfl
  | ok lengths => cases tree.target output <;> rfl

end Through

/-! ## Whole attempts -/

/-- **What an attempt can do**: fail and change nothing, or put the plaintext where the output path leads -/
theorem decrypt_cases (tree : Tree) (keyFile encrypted output : Path) :
    (∃ error, (decrypt tree keyFile encrypted output).result = .error error ∧
      (decrypt tree keyFile encrypted output).tree = tree) ∨
    ∃ key mode data plaintext goal, tree.read keyFile = .ok key.toList ∧ tree.stat encrypted = .ok (.file mode data) ∧
      decryptBytes key data = .ok plaintext ∧ tree.target output = .ok goal ∧
      (decrypt tree keyFile encrypted output).result = .ok ⟨output, data.length, plaintext.length⟩ ∧
      (decrypt tree keyFile encrypted output).tree = tree.put goal (.file (outputMode tree output) plaintext) := by
  unfold decrypt decryptUsing
  rcases hk : loadKey tree keyFile with ⟨_ | key, events⟩
  · exact Or.inl ⟨_, rfl, rfl⟩
  cases ho : openEncrypted tree encrypted with
  | error error => exact Or.inl ⟨error, rfl, rfl⟩
  | ok node =>
    cases hp : tree.newPlace output.directory (tree.freshName output) with
    | error failure => simp only [hp]; exact Or.inl ⟨_, rfl, trivial⟩
    | ok spot =>
      obtain ⟨place, rfl⟩ := newPlace_eq_ok hp
      simp only [hp, decryptThrough_eq (Tree.freshName_new tree output)]
      cases hr : (decryptStream key node.source .collecting).result with
      | error error => exact Or.inl ⟨_, rfl, rfl⟩
      | ok lengths =>
        cases ht : tree.target output with
        | error failure => exact Or.inl ⟨_, rfl, rfl⟩
        | ok goal =>
          obtain ⟨mode, data, plaintext, rfl, hb, rfl, hw⟩ := stream_eq_ok hr
          refine Or.inr ⟨key, mode, data, plaintext, goal, loadKey_eq_ok.1 (by rw [hk]), openEncrypted_eq_ok.1 ho, hb,
            rfl, rfl, ?_⟩
          simp only [hw]

/-- **A tree of files stays one** -/
theorem decrypt_wellFormed {tree : Tree} (h : tree.WellFormed) (keyFile encrypted output : Path) :
    (decrypt tree keyFile encrypted output).tree.WellFormed := by
  rcases decrypt_cases tree keyFile encrypted output with
    ⟨error, -, ht⟩ | ⟨key, mode, data, plaintext, goal, -, -, -, hgoal, -, ht⟩
  · rw [ht]
    exact h
  · obtain ⟨here, name, hleads, -, hdir, rfl⟩ := Tree.target_eq_ok.1 hgoal
    rw [ht]
    exact h.put_file hdir (by rw [List.dropLast_concat]; exact hleads.directory) _ _

/-- **An attempt on files**, told without the temporary file: what it comes to, what it logs and which tree it leaves -/
theorem decrypt_eq {tree : Tree} {keyFile encrypted output : Path} {keyBytes data : Bytes} {mode : Nat}
    (hkey : tree.read keyFile = .ok keyBytes) (henc : tree.stat encrypted = .ok (.file mode data)) :
    let opened : List Event := [.loadedKey keyFile keyBytes.length, .openedEncrypted encrypted data.length]
    let writing := Event.writingTemporary (tree.temporary output)
    decrypt tree keyFile encrypted output =
      match Key.ofBytes? keyBytes with
      | none => ⟨.error (.cipher (.keyLength keyBytes.length)), [.loadedKey keyFile keyBytes.length], tree⟩
      | some key =>
        match tree.newPlace output.directory (tree.freshName output) with
        | .error failure =>
          ⟨.error (.io (.createTemporary output.directory) (failure.making (tree.temporary output))), opened, tree⟩
        | .ok _ =>
          match decryptBytes key data with
          | .error error => ⟨.error (error.inFile encrypted), opened ++ [writing], tree⟩
          | .ok plaintext =>
            let events := opened ++ [writing, .streamDecrypted ⟨data.length - 16, plaintext.length⟩]
            match tree.target output with
            | .error failure => ⟨.error (.io (.writeOutput output) failure), events, tree⟩
            | .ok goal => ⟨.ok ⟨output, data.length, plaintext.length⟩, events,
                tree.put goal (.file (outputMode tree output) plaintext)⟩ := by
  intro opened writing
  have hload : loadKey tree keyFile = (Key.ofBytes keyBytes, [.loadedKey keyFile keyBytes.length]) := by
    rw [loadKey, hkey]
  rw [decrypt, decryptUsing, hload, Key.ofBytes]
  cases Key.ofBytes? keyBytes with
  | none => rfl
  | some key =>
    simp only [openEncrypted_eq_ok.2 henc]
    cases hspot : tree.newPlace output.directory (tree.freshName output) with
    | error failure => rfl
    | ok spot =>
      obtain ⟨place, rfl⟩ := newPlace_eq_ok hspot
      simp only [decryptThrough_eq (Tree.freshName_new tree output), stream_file]
      unfold verdict written
      cases decryptBytes key data with
      | error error => rfl
      | ok plaintext =>
        simp only [Except.map]
        cases tree.target output with
        | error failure => rfl
        | ok goal =>
          have hreceived : ((#[] : Array UInt8) ++ plaintext).toList = plaintext := by simp
          simp only [hreceived]
          rfl

/-- if a temporary file can be made, only the bytes and the output path decide -/
theorem decrypt_files {tree : Tree} {keyFile encrypted output : Path} {keyBytes data : Bytes} {mode : Nat}
    {spot : Location} (hkey : tree.read keyFile = .ok keyBytes) (henc : tree.stat encrypted = .ok (.file mode data))
    (hspot : tree.newPlace output.directory (tree.freshName output) = .ok spot) :
    ((decrypt tree keyFile encrypted output).result, (decrypt tree keyFile encrypted output).tree) =
      match Key.ofBytes? keyBytes with
      | none => (.error (.cipher (.keyLength keyBytes.length)), tree)
      | some key =>
        match decryptBytes key data with
        | .error error => (.error (error.inFile encrypted), tree)
        | .ok plaintext =>
          match tree.target output with
          | .error failure => (.error (.io (.writeOutput output) failure), tree)
          | .ok goal => (.ok ⟨output, data.length, plaintext.length⟩,
              tree.put goal (.file (outputMode tree output) plaintext)) := by
  rw [decrypt_eq hkey henc, hspot]
  cases Key.ofBytes? keyBytes with
  | none => rfl
  | some key =>
    simp only
    cases decryptBytes key data with
    | error error => rfl
    | ok plaintext =>
      simp only
      cases tree.target output with
      | error failure => rfl
      | ok goal => rfl

/-- in directories of one path, temporary files differ in their names at most -/
theorem temporary_nameless {tree other : Tree} {output otherOutput : Path}
    (h : tree.fromRoot output.directory = other.fromRoot otherOutput.directory) :
    (tree.temporary output).nameless = (other.temporary otherOutput).nameless := by
  simp only [Tree.temporary, TemporaryPath.nameless, h]

/-- **Which name the temporary file gets** makes no difference: under two names that are not in use, attempts have the
same result, log the same and leave the same tree, but for the name where an event or an error tells it -/
theorem decryptUsing_any {tree : Tree} {output : Path} {name other : Bytes} (h : tree.New output name)
    (hother : tree.New output other) (keyFile encrypted : Path) :
    (decryptUsing name tree keyFile encrypted output).nameless =
      (decryptUsing other tree keyFile encrypted output).nameless := by
  unfold decryptUsing
  rcases loadKey tree keyFile with ⟨_ | key, events⟩
  · rfl
  cases openEncrypted tree encrypted with
  | error error => rfl
  | ok node =>
    cases hp : tree.newPlace output.directory name with
    | error failure =>
      simp only [hp, newPlace_error hp other]
      rfl
    | ok spot =>
      cases hp' : tree.newPlace output.directory other with
      | error failure =>
        rw [newPlace_error hp' name] at hp
        cases hp
      | ok spot' =>
        obtain ⟨place, rfl⟩ := newPlace_eq_ok hp
        obtain ⟨place', rfl⟩ := newPlace_eq_ok hp'
        simp only [hp, hp', decryptThrough_eq h, decryptThrough_eq hother]
        simp [Attempt.nameless, Event.nameless, TemporaryPath.nameless]

/-- **Decryption is all or nothing.** If an attempt fails, at whichever stage, the tree is what it was before. If it
succeeds, the key file held a key, the encrypted file held bytes that decrypt under it, and the tree differs only at the
place that the output path names. No directory stood there; now a regular file with the plaintext does, with the mode of
the file that stood there before or, if none did, readable and writable by its owner alone. The output path leads to
it, and every other place has what it had. -/
theorem decrypt_all_or_nothing (tree : Tree) (keyFile encrypted output : Path) :
    let attempt := decrypt tree keyFile encrypted output
    let place := tree.nominal output
    match attempt.result with
    | .error _ => attempt.tree = tree
    | .ok _ => ∃ key data plaintext mode,
        tree.read keyFile = .ok key.toList ∧ tree.read encrypted = .ok data ∧ decryptBytes key data = .ok plaintext ∧
        tree.find place ≠ some .directory ∧
        mode = (match tree.find place with
          | some (.file mode _) => mode
          | _ => 0o600) ∧
        attempt.tree = tree.put place (.file mode plaintext) ∧
        attempt.tree.stat output = .ok (.file mode plaintext) ∧
        ∀ other, other ≠ place → attempt.tree.find other = tree.find other := by
  intro attempt place
  rcases decrypt_cases tree keyFile encrypted output with
    ⟨error, hr, ht⟩ | ⟨key, mode, data, plaintext, goal, hkey, henc, hb, hgoal, hr, ht⟩
  · rw [show attempt.result = .error error from hr]
    exact ht
  · obtain rfl : goal = place := Tree.nominal_of_target hgoal
    rw [show attempt.result = .ok ⟨output, data.length, plaintext.length⟩ from hr, show attempt.tree = _ from ht]
    refine ⟨key, data, plaintext, outputMode tree output, hkey, ?_, hb, ?_, ?_, rfl, ?_, fun other hne => ?_⟩
    · rw [Tree.read, henc]
    · obtain ⟨here, name, -, -, hdir, -⟩ := Tree.target_eq_ok.1 hgoal
      exact hdir
    · rw [outputMode, Tree.stat_of_target hgoal]
      cases tree.find place with
      | none => rfl
      | some node => cases node <;> rfl
    · exact Tree.stat_put_target hgoal
    · exact Tree.find_put_of_ne tree hne _

end CbcFile
