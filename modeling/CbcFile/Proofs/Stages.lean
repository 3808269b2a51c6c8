/-
The stages of a decryption into a file, and which of them decides. There are six: the key file is read, its length is
checked, the encrypted file is opened, a temporary file is made, the stream is decrypted, the temporary file is renamed.
`FailsAt` lists how each of them fails when none before it does, always on the tree as it is found: what an attempt does
to the tree before it fails cannot be told from its error (`attempt_result`).

A stage looks at its own path and at the kind of what stands on the way of that path; two of them read bytes (`AgreeAt`).
So an error is the same for all requests that agree on what the stages up to it look at (`FailsAt.of_agree`). Only the
temporary file has another name each time, which the error of its stage tells: `DecryptError.nameless` leaves it out.

Result:
- `first_failing_stage`: an attempt fails exactly with the error of the first stage that fails, and succeeds if none does.
-/
import Mathlib.Tactic
import CbcFile.Proofs.FileDecrypt
import CbcFile.Proofs.Sight
import CbcFile.Proofs.Stream.Faults

namespace CbcFile

/-! ## Stages -/

/-- the stages of a decryption into a file -/
inductive Stage where
  | readKey
  | checkKey
  | openEncrypted
  | makeTemporary
  | decryptStream
  | renameOutput
deriving DecidableEq, Repr

/-- the place of a stage in the order -/
def Stage.rank : Stage → Nat
  | .readKey => 1
  | .checkKey => 2
  | .openEncrypted => 3
  | .makeTemporary => 4
  | .decryptStream => 5
  | .renameOutput => 6

/-- what is asked of a decryption into a file: three paths in a tree -/
structure Request where
  tree : Tree
  keyFile : Path
  encrypted : Path
  output : Path

namespace Request

/-- the decryption that is asked for -/
def attempt (r : Request) : Attempt Summary :=
  decrypt r.tree r.keyFile r.encrypted r.output

/-- the place of the temporary file, or why none can be made -/
def place (r : Request) : Except IoFailure Location :=
  r.tree.newPlace r.output.directory (r.tree.freshName r.output)

/-- the path of the temporary file -/
def temporary (r : Request) : TemporaryPath :=
  r.tree.temporary r.output

/-- this stage fails with this error, and those before it do not fail -/
inductive FailsAt (r : Request) : Stage → DecryptError → Prop where
  | missingKey {failure : IoFailure} (hkey : r.tree.read r.keyFile = .error failure) (hkind : failure.kind = .notFound) :
    r.FailsAt .readKey (.missingFile .key r.keyFile)
  | unreadableKey {failure : IoFailure} (hkey : r.tree.read r.keyFile = .error failure)
      (hkind : failure.kind ≠ .notFound) : r.FailsAt .readKey (.io (.readKeyFile r.keyFile) failure)
  | keyLength {bytes : Bytes} (hkey : r.tree.read r.keyFile = .ok bytes) (hlength : bytes.length ≠ 32) :
    r.FailsAt .checkKey (.cipher (.keyLength bytes.length))
  | missingEncrypted {key : Key} {failure : IoFailure} (hkey : r.tree.read r.keyFile = .ok key.toList)
      (hopen : r.tree.stat r.encrypted = .error failure) (hkind : failure.kind = .notFound) :
    r.FailsAt .openEncrypted (.missingFile .encrypted r.encrypted)
  | closedEncrypted {key : Key} {failure : IoFailure} (hkey : r.tree.read r.keyFile = .ok key.toList)
      (hopen : r.tree.stat r.encrypted = .error failure) (hkind : failure.kind ≠ .notFound) :
    r.FailsAt .openEncrypted (.io (.openEncrypted r.encrypted) failure)
  | noTemporary {key : Key} {node : Node} {failure : IoFailure} (hkey : r.tree.read r.keyFile = .ok key.toList)
      (hopen : r.tree.stat r.encrypted = .ok node) (hplace : r.place = .error failure) :
    r.FailsAt .makeTemporary (.io (.createTemporary r.output.directory) (failure.making r.temporary))
  | directory {key : Key} {spot : Location} (hkey : r.tree.read r.keyFile = .ok key.toList)
      (hopen : r.tree.stat r.encrypted = .ok .directory) (hplace : r.place = .ok spot) :
    r.FailsAt .decryptStream (.io .readIv .isADirectory)
  | tooSmall {key : Key} {mode : Nat} {data : Bytes} {spot : Location} (hkey : r.tree.read r.keyFile = .ok key.toList)
      (hopen : r.tree.stat r.encrypted = .ok (.file mode data)) (hplace : r.place = .ok spot)
      (hdata : decryptBytes key data = .error (.inputTooSmall data.length)) :
    r.FailsAt .decryptStream (.inputTooSmall data.length)
  | refused {key : Key} {mode : Nat} {data : Bytes} {spot : Location} {fault : CipherFault}
      (hkey : r.tree.read r.keyFile = .ok key.toList) (hopen : r.tree.stat r.encrypted = .ok (.file mode data))
      (hplace : r.place = .ok spot) (hdata : decryptBytes key data = .error (.cipher fault)) :
    r.FailsAt .decryptStream (.cipher (.inFile r.encrypted fault))
  | noRename {key : Key} {mode : Nat} {data plaintext : Bytes} {spot : Location} {failure : IoFailure}
      (hkey : r.tree.read r.keyFile = .ok key.toList) (hopen : r.tree.stat r.encrypted = .ok (.file mode data))
      (hplace : r.place = .ok spot) (hdata : decryptBytes key data = .ok plaintext)
      (htarget : r.tree.target r.output = .error failure) :
    r.FailsAt .renameOutput (.io (.writeOutput r.output) failure)

/-- no stage fails: there is a key, a file that decrypts under it, room for the temporary file, and a place for it -/
inductive Succeeds (r : Request) : Summary → Prop where
  | intro {key : Key} {mode : Nat} {data plaintext : Bytes} {spot goal : Location}
      (hkey : r.tree.read r.keyFile = .ok key.toList) (hopen : r.tree.stat r.encrypted = .ok (.file mode data))
      (hplace : r.place = .ok spot) (hdata : decryptBytes key data = .ok plaintext)
      (htarget : r.tree.target r.output = .ok goal) : r.Succeeds ⟨r.output, data.length, plaintext.length⟩

/-! ## The result of an attempt -/

/-- **What an attempt comes to**, told on the tree as it is found -/
theorem attempt_result (r : Request) : r.attempt.result =
    match r.tree.read r.keyFile with
    | .error failure => .error (openError .key r.keyFile (.readKeyFile r.keyFile) failure)
    | .ok bytes =>
      match Key.ofBytes? bytes with
      | none => .error (.cipher (.keyLength bytes.length))
      | some key =>
        match r.tree.stat r.encrypted with
        | .error failure => .error (openError .encrypted r.encrypted (.openEncrypted r.encrypted) failure)
        | .ok node =>
          match r.place with
          | .error failure => .error (.io (.createTemporary r.output.directory) (failure.making r.temporary))
          | .ok _ =>
            match node with
            | .directory => .error (.io .readIv .isADirectory)
            | .file _ data =>
              match decryptBytes key data with
              | .error error => .error (error.inFile r.encrypted)
              | .ok plaintext =>
                match r.tree.target r.output with
                | .error failure => .error (.io (.writeOutput r.output) failure)
                | .ok _ => .ok ⟨r.output, data.length, plaintext.length⟩ := by
  rw [attempt, place, decrypt, decryptUsing, loadKey]
  cases r.tree.read r.keyFile with
  | error failure => rfl
  | ok bytes =>
    simp only [Key.ofBytes]
    cases Key.ofBytes? bytes with
    | none => rfl
    | some key =>
      cases hopen : r.tree.stat r.encrypted with
      | error failure => simp only [openEncrypted, hopen]
      | ok node =>
        simp only [openEncrypted_eq_ok.2 hopen]
        cases hplace : r.tree.newPlace r.output.directory (r.tree.freshName r.output) with
        | error failure => rfl
        | ok spot =>
          obtain ⟨here, rfl⟩ := newPlace_eq_ok hplace
          simp only [decryptThrough_eq (Tree.freshName_new r.tree r.output)]
          cases node with
          | directory => simp only [stream_directory, DecryptError.inFile]
          | file mode data =>
            simp only [stream_file, verdict]
            cases decryptBytes key data with
            | error error => rfl
            | ok plaintext => cases r.tree.target r.output <;> rfl

variable {r other : Request} {stage : Stage} {error : DecryptError}

/-- a stage that fails with none before it gives the error of the attempt -/
theorem FailsAt.result (h : r.FailsAt stage error) : r.attempt.result = .error error := by
  rw [attempt_result]
  cases h with
  | missingKey hkey hkind => simp only [hkey, openError, if_pos hkind]
  | unreadableKey hkey hkind => simp only [hkey, openError, if_neg hkind]
  | keyLength hkey hlength => simp only [hkey, Key.ofBytes?_eq_none.2 hlength]
  | missingEncrypted hkey hopen hkind => simp only [hkey, Key.ofBytes?_toList, hopen, openError, if_pos hkind]
  | closedEncrypted hkey hopen hkind => simp only [hkey, Key.ofBytes?_toList, hopen, openError, if_neg hkind]
  | noTemporary hkey hopen hplace => simp only [hkey, Key.ofBytes?_toList, hopen, hplace]
  | directory hkey hopen hplace => simp only [hkey, Key.ofBytes?_toList, hopen, hplace]
  | tooSmall hkey hopen hplace hdata =>
    simp only [hkey, Key.ofBytes?_toList, hopen, hplace, hdata, DecryptError.inFile]
  | refused hkey hopen hplace hdata => simp only [hkey, Key.ofBytes?_toList, hopen, hplace, hdata, DecryptError.inFile]
  | noRename hkey hopen hplace hdata htarget =>
    simp only [hkey, Key.ofBytes?_toList, hopen, hplace, hdata, htarget]

theorem Succeeds.result {summary : Summary} (h : r.Succeeds summary) : r.attempt.result = .ok summary := by
  rw [attempt_result]
  obtain ⟨hkey, hopen, hplace, hdata, htarget⟩ := h
  simp only [hkey, Key.ofBytes?_toList, hopen, hplace, hdata, htarget]

/-- **Every request** fails at a stage or succeeds -/
theorem exists_stage_or_succeeds (r : Request) :
    (∃ stage error, r.FailsAt stage error) ∨ ∃ summary, r.Succeeds summary := by
  cases hkey : r.tree.read r.keyFile with
  | error failure =>
    by_cases hkind : failure.kind = .notFound
    · exact Or.inl ⟨_, _, .missingKey hkey hkind⟩
    · exact Or.inl ⟨_, _, .unreadableKey hkey hkind⟩
  | ok bytes =>
    cases hk : Key.ofBytes? bytes with
    | none => exact Or.inl ⟨_, _, .keyLength hkey (Key.ofBytes?_eq_none.1 hk)⟩
    | some key =>
      obtain rfl := Key.ofBytes?_eq_some.1 hk
      cases hopen : r.tree.stat r.encrypted with
      | error failure =>
        by_cases hkind : failure.kind = .notFound
        · exact Or.inl ⟨_, _, .missingEncrypted hkey hopen hkind⟩
        · exact Or.inl ⟨_, _, .closedEncrypted hkey hopen hkind⟩
      | ok node =>
        cases hplace : r.place with
        | error failure => exact Or.inl ⟨_, _, .noTemporary hkey hopen hplace⟩
        | ok spot =>
          cases node with
          | directory => exact Or.inl ⟨_, _, .directory hkey hopen hplace⟩
          | file mode data =>
            cases hdata : decryptBytes key data with
            | error error =>
              rcases decryptBytes_error hdata with rfl | ⟨fault, rfl⟩
              · exact Or.inl ⟨_, _, .tooSmall hkey hopen hplace hdata⟩
              · exact Or.inl ⟨_, _, .refused hkey hopen hplace hdata⟩
            | ok plaintext =>
              cases htarget : r.tree.target r.output with
              | error failure => exact Or.inl ⟨_, _, .noRename hkey hopen hplace hdata htarget⟩
              | ok goal => exact Or.inr ⟨_, .intro hkey hopen hplace hdata htarget⟩

/-- a request fails with one error -/
theorem FailsAt.error_eq {later : Stage} {same : DecryptError} (h : r.FailsAt stage error)
    (hlater : r.FailsAt later same) : error = same :=
  Except.error.inj (h.result.symm.trans hlater.result)

/-- an error tells the stage -/
theorem FailsAt.stage_eq {later : Stage} {same : DecryptError} (h : r.FailsAt stage error)
    (hlater : r.FailsAt later same) (heq : error = same) : stage = later := by
  cases h <;> cases hlater <;> first | rfl | cases heq

/-! ## What a stage looks at -/

/-- the requests agree on what a stage looks at: its path, the kind of what stands on the way, and the bytes if it reads
them. The key has been read when its length is checked -/
def AgreeAt (r other : Request) : Stage → Prop
  | .readKey =>
    r.keyFile = other.keyFile ∧ r.tree.AgreeOn other.tree r.keyFile ∧
      r.tree.SameBytes other.tree r.keyFile other.keyFile
  | .checkKey => True
  | .openEncrypted => r.encrypted = other.encrypted ∧ r.tree.AgreeOn other.tree r.encrypted
  | .makeTemporary =>
    r.output.directory = other.output.directory ∧ r.tree.AgreeOn other.tree r.output.directory
  | .decryptStream => r.tree.SameBytes other.tree r.encrypted other.encrypted
  | .renameOutput => r.output = other.output ∧ r.tree.AgreeOn other.tree r.output

/-- the requests agree on what this stage and those before it look at -/
def AgreeUpTo (r other : Request) (stage : Stage) : Prop :=
  ∀ earlier : Stage, earlier.rank ≤ stage.rank → r.AgreeAt other earlier

theorem AgreeAt.symm (h : r.AgreeAt other stage) : other.AgreeAt r stage := by
  cases stage with
  | readKey => exact ⟨h.1.symm, h.1 ▸ h.2.1.symm, h.2.2.symm⟩
  | checkKey => trivial
  | openEncrypted => exact ⟨h.1.symm, h.1 ▸ h.2.symm⟩
  | makeTemporary => exact ⟨h.1.symm, h.1 ▸ h.2.symm⟩
  | decryptStream => exact Tree.SameBytes.symm h
  | renameOutput => exact ⟨h.1.symm, h.1 ▸ h.2.symm⟩

section Agree

theorem read_of_agree (h : r.AgreeAt other .readKey) : other.tree.read other.keyFile = r.tree.read r.keyFile := by
  obtain ⟨hpath, hsight, hbytes⟩ := h
  rw [← hpath] at hbytes ⊢
  exact (hsight.read hbytes).symm

theorem open_error_of_agree (h : r.AgreeAt other .openEncrypted) {failure : IoFailure}
    (hopen : r.tree.stat r.encrypted = .error failure) : other.tree.stat other.encrypted = .error failure := by
  rw [← h.1]
  exact h.2.stat_error hopen

theorem open_ok_of_agree (h : r.AgreeAt other .openEncrypted) {node : Node}
    (hopen : r.tree.stat r.encrypted = .ok node) : ∃ found, other.tree.stat other.encrypted = .ok found := by
  rw [← h.1]
  obtain ⟨found, hfound, -⟩ := h.2.stat_ok hopen
  exact ⟨found, hfound⟩

theorem open_directory_of_agree (h : r.AgreeAt other .openEncrypted)
    (hopen : r.tree.stat r.encrypted = .ok .directory) : other.tree.stat other.encrypted = .ok .directory := by
  rw [← h.1]
  exact h.2.stat_directory hopen

theorem open_file_of_agree (h : r.AgreeAt other .openEncrypted) (hstream : r.AgreeAt other .decryptStream) {mode : Nat}
    {data : Bytes} (hopen : r.tree.stat r.encrypted = .ok (.file mode data)) :
    ∃ found, other.tree.stat other.encrypted = .ok (.file found data) := by
  have hbytes : r.tree.SameBytes other.tree r.encrypted other.encrypted := hstream
  rw [← h.1] at hbytes ⊢
  exact h.2.stat_file hbytes hopen

theorem target_of_agree (h : r.AgreeAt other .renameOutput) : other.tree.target other.output = r.tree.target r.output := by
  rw [← h.1, h.2.target]

/-- the temporary file may get another name, but where it goes is the same -/
theorem place_of_agree (h : r.AgreeAt other .makeTemporary) :
    other.place.map List.dropLast = r.place.map List.dropLast := by
  rw [place, place, ← h.1]
  exact (h.2.newPlace _ _).symm

theorem place_error_of_agree (h : r.AgreeAt other .makeTemporary) {failure : IoFailure}
    (hplace : r.place = .error failure) : other.place = .error failure := by
  have hboth := place_of_agree h
  rw [hplace] at hboth
  cases ho : other.place with
  | error found => rw [ho] at hboth; rw [Except.error.inj hboth]
  | ok spot => rw [ho] at hboth; cases hboth

theorem place_ok_of_agree (h : r.AgreeAt other .makeTemporary) {spot : Location} (hplace : r.place = .ok spot) :
    ∃ there, other.place = .ok there := by
  have hboth := place_of_agree h
  rw [hplace] at hboth
  cases ho : other.place with
  | error found => rw [ho] at hboth; cases hboth
  | ok there => exact ⟨there, rfl⟩

/-- the directory that the temporary file goes to is the same, told from the root -/
theorem temporary_of_agree (h : r.AgreeAt other .makeTemporary) : r.temporary.nameless = other.temporary.nameless := by
  apply temporary_nameless
  rw [← h.1, h.2.fromRoot]

/-- **What a stage fails with** is the same for requests that agree on what has been looked at by then, but for the name
of the temporary file -/
theorem FailsAt.of_agree (h : r.FailsAt stage error) (hagree : r.AgreeUpTo other stage) :
    ∃ same, other.FailsAt stage same ∧ error.nameless = same.nameless ∧ (stage ≠ .makeTemporary → error = same) := by
  have hread : ∀ {bytes}, r.tree.read r.keyFile = bytes → other.tree.read other.keyFile = bytes := fun hkey =>
    (read_of_agree (hagree .readKey (by cases stage <;> decide))).trans hkey
  cases h with
  | missingKey hkey hkind =>
    rw [(hagree .readKey (le_refl _)).1]
    exact ⟨_, .missingKey (hread hkey) hkind, rfl, fun _ => rfl⟩
  | unreadableKey hkey hkind =>
    rw [(hagree .readKey (le_refl _)).1]
    exact ⟨_, .unreadableKey (hread hkey) hkind, rfl, fun _ => rfl⟩
  | keyLength hkey hlength => exact ⟨_, .keyLength (hread hkey) hlength, rfl, fun _ => rfl⟩
  | missingEncrypted hkey hopen hkind =>
    have hsight := hagree .openEncrypted (le_refl _)
    rw [hsight.1]
    exact ⟨_, .missingEncrypted (hread hkey) (open_error_of_agree hsight hopen) hkind, rfl, fun _ => rfl⟩
  | closedEncrypted hkey hopen hkind =>
    have hsight := hagree .openEncrypted (le_refl _)
    rw [hsight.1]
    exact ⟨_, .closedEncrypted (hread hkey) (open_error_of_agree hsight hopen) hkind, rfl, fun _ => rfl⟩
  | noTemporary hkey hopen hplace =>
    have hsight := hagree .makeTemporary (le_refl _)
    obtain ⟨found, hfound⟩ := open_ok_of_agree (hagree .openEncrypted (by decide)) hopen
    refine ⟨_, .noTemporary (hread hkey) hfound (place_error_of_agree hsight hplace), ?_, fun hc => absurd rfl hc⟩
    simp only [DecryptError.nameless, IoFailure.nameless_making, temporary_of_agree hsight, hsight.1]
  | directory hkey hopen hplace =>
    obtain ⟨there, hthere⟩ := place_ok_of_agree (hagree .makeTemporary (by decide)) hplace
    have hdirectory := open_directory_of_agree (hagree .openEncrypted (by decide)) hopen
    exact ⟨_, .directory (hread hkey) hdirectory hthere, rfl, fun _ => rfl⟩
  | tooSmall hkey hopen hplace hdata =>
    obtain ⟨there, hthere⟩ := place_ok_of_agree (hagree .makeTemporary (by decide)) hplace
    obtain ⟨mode, hfound⟩ := open_file_of_agree (hagree .openEncrypted (by decide)) (hagree _ (le_refl _)) hopen
    exact ⟨_, .tooSmall (hread hkey) hfound hthere hdata, rfl, fun _ => rfl⟩
  | refused hkey hopen hplace hdata =>
    have hsight := hagree .openEncrypted (by decide)
    obtain ⟨there, hthere⟩ := place_ok_of_agree (hagree .makeTemporary (by decide)) hplace
    obtain ⟨mode, hfound⟩ := open_file_of_agree hsight (hagree _ (le_refl _)) hopen
    rw [hsight.1]
    exact ⟨_, .refused (hread hkey) hfound hthere hdata, rfl, fun _ => rfl⟩
  | noRename hkey hopen hplace hdata htarget =>
    have hsight := hagree .renameOutput (le_refl _)
    obtain ⟨there, hthere⟩ := place_ok_of_agree (hagree .makeTemporary (by decide)) hplace
    obtain ⟨mode, hfound⟩ := open_file_of_agree (hagree .openEncrypted (by decide)) (hagree .decryptStream (by decide))
      hopen
    rw [hsight.1]
    exact ⟨_, .noRename (hread hkey) hfound hthere hdata ((target_of_agree hsight).trans htarget), rfl, fun _ => rfl⟩

end Agree

/-- **The first stage that fails decides**, whatever would also have failed after it. An attempt fails with an error
exactly if one stage fails with it, and no stage before that one; it succeeds exactly if no stage fails. Take two requests
that agree on what a stage and those before it look at: the path of each of them, the kind of what stands on its way, and
the bytes that are read. The stage fails for both or for neither, and with the same error, but for the name of the
temporary file in the error of the stage that makes it; so it is with one request, whichever unused name that file gets.
The causes are told in these words, the directory of the output being the dot if the path has no parent or an empty
one. -/
theorem first_failing_stage (r : Request) :
    (∀ error, r.attempt.result = .error error ↔ ∃! stage, r.FailsAt stage error) ∧
    (∀ summary, r.attempt.result = .ok summary ↔ r.Succeeds summary) ∧
    (∀ other stage, r.AgreeUpTo other stage →
      ((∃ error, r.FailsAt stage error) ↔ ∃ error, other.FailsAt stage error) ∧
      ∀ error same, r.FailsAt stage error → other.FailsAt stage same →
        error.nameless = same.nameless ∧ (stage ≠ .makeTemporary → error = same)) ∧
    (∀ name, r.tree.New r.output name →
      (decryptUsing name r.tree r.keyFile r.encrypted r.output).result.mapError DecryptError.nameless =
        r.attempt.result.mapError DecryptError.nameless) ∧
    Activity.text (.readKeyFile r.keyFile) = s!"failed to read key file {r.keyFile.display}" ∧
    (∀ n, CipherFault.text (.keyLength n) = s!"invalid key length: expected 32 bytes, got {n}") ∧
    Activity.text (.openEncrypted r.encrypted) = s!"failed to open {r.encrypted.display}" ∧
    Activity.text (.createTemporary r.output.directory) =
      s!"failed to create temporary file in {r.output.directory.display}" ∧
    (r.output.directory =
      match r.output.parent? with
      | none => ⟨Path.dot⟩
      | some parent => if parent.bytes = [] then ⟨Path.dot⟩ else parent) ∧
    Activity.text .readIv = "failed to read IV" ∧
    (∀ fault, CipherFault.text (.inFile r.encrypted fault) =
      s!"could not decrypt file {r.encrypted.display}: {fault.text}") ∧
    Activity.text (.writeOutput r.output) = s!"failed to write output file {r.output.display}" := by
  refine ⟨fun error => ⟨fun h => ?_, fun ⟨_, hfails, _⟩ => hfails.result⟩, fun summary => ⟨fun h => ?_, Succeeds.result⟩,
    fun other stage hagree => ⟨⟨?_, ?_⟩, fun error same h hsame => ?_⟩, fun name hname => ?_, rfl, fun n => rfl, rfl, rfl,
    ?_, rfl, fun fault => rfl, rfl⟩
  · rcases r.exists_stage_or_succeeds with ⟨stage, found, hfails⟩ | ⟨summary, hsucceeds⟩
    · obtain rfl : found = error := Except.error.inj (hfails.result.symm.trans h)
      exact ⟨stage, hfails, fun later hlater => hlater.stage_eq hfails rfl⟩
    · rw [hsucceeds.result] at h
      cases h
  · rcases r.exists_stage_or_succeeds with ⟨stage, found, hfails⟩ | ⟨found, hsucceeds⟩
    · rw [hfails.result] at h
      cases h
    · rw [hsucceeds.result] at h
      rwa [← Except.ok.inj h]
  · rintro ⟨error, h⟩
    obtain ⟨same, hsame, -⟩ := h.of_agree hagree
    exact ⟨same, hsame⟩
  · rintro ⟨error, h⟩
    obtain ⟨same, hsame, -⟩ := h.of_agree fun earlier hle => (hagree earlier hle).symm
    exact ⟨same, hsame⟩
  · obtain ⟨found, hfound, hnameless, heq⟩ := h.of_agree hagree
    obtain rfl := hfound.error_eq hsame
    exact ⟨hnameless, heq⟩
  · have hfresh := Tree.freshName_new r.tree r.output
    exact congrArg Attempt.result (decryptUsing_any hname hfresh r.keyFile r.encrypted)
  · rw [Path.directory]
    cases r.output.parent? <;> rfl

end Request

end CbcFile
