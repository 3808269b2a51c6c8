/-
What a run can tell about the bytes of files. The outline of a tree keeps everything but the bytes: the places, the modes
and the lengths. Every walk goes the same way in a tree and in its outline, so all that a run does before it decrypts is
decided by the outline. Of a decryption that fails the error is decided by the length (`decryptBytes_fault`), and of one
that succeeds only the length of the plaintext is told.

Result:
- `program_reveals_lengths`: in two trees with one outline, in which decryption gives plaintexts of one length or fails,
  the program prints the same.
-/
import Mathlib.Tactic
import CbcFile.Proofs.History
import CbcFile.Proofs.Stream.Faults

namespace CbcFile

/-! ## Outlines -/

/-- a node with its bytes blotted out -/
def Node.outline : Node → Node
  | .file mode data => .file mode (List.replicate data.length 0)
  | .directory => .directory

/-- a tree with the bytes of all files blotted out -/
def Tree.outline (tree : Tree) : Tree :=
  { tree with entries := tree.entries.map fun entry => (entry.1, entry.2.outline) }

theorem Node.outline_eq_directory {node : Node} : node.outline = .directory ↔ node = .directory := by
  cases node <;> simp [outline]

theorem Node.outline_eq_file {node other : Node} {mode : Nat} {data : Bytes} (h : node.outline = other.outline)
    (hnode : node = .file mode data) : ∃ otherData, other = .file mode otherData ∧ otherData.length = data.length := by
  rw [hnode] at h
  cases other with
  | directory => cases h
  | file otherMode otherData =>
    obtain ⟨hmode, hdata⟩ := Node.file.inj h
    have hlength := congrArg List.length hdata
    rw [List.length_replicate, List.length_replicate] at hlength
    exact ⟨otherData, by rw [hmode], hlength.symm⟩

namespace Tree

variable (tree : Tree)

theorem find_outline (place : Location) : tree.outline.find place = (tree.find place).map Node.outline := by
  unfold find outline
  by_cases hroot : place = []
  · rw [if_pos hroot, if_pos hroot]
    rfl
  · rw [if_neg hroot, if_neg hroot, List.find?_map, Option.map_map, Option.map_map]
    rfl

theorem find_outline_eq_directory {place : Location} :
    tree.outline.find place = some .directory ↔ tree.find place = some .directory := by
  rw [find_outline, Option.map_eq_some_iff]
  simp only [Node.outline_eq_directory, exists_eq_right]

theorem find_outline_eq_none {place : Location} : tree.outline.find place = none ↔ tree.find place = none := by
  rw [find_outline, Option.map_eq_none_iff]

/-! ### Walks -/

theorem step_outline (here : Location) (name : Bytes) : tree.outline.step here name = tree.step here name := by
  simp only [step, ne_eq, find_outline_eq_directory, find_outline_eq_none]

theorem walk_outline (here : Location) (names : List Bytes) : tree.outline.walk here names = tree.walk here names := by
  induction names generalizing here with
  | nil => rfl
  | cons name rest ih => simp only [walk, step_outline, ih]

theorem start_outline (path : Path) : tree.outline.start path = tree.start path := rfl

theorem resolve_outline (path : Path) : tree.outline.resolve path = tree.resolve path := by
  simp only [resolve, start_outline, walk_outline, ne_eq, find_outline_eq_directory]

theorem stat_outline (path : Path) : tree.outline.stat path = (tree.stat path).map Node.outline := by
  rw [stat, stat, resolve_outline]
  cases tree.resolve path with
  | error failure => rfl
  | ok place =>
    simp only [find_outline]
    cases tree.find place <;> rfl

theorem isFile_outline (path : Path) : tree.outline.isFile path = tree.isFile path := by
  rw [isFile, isFile, stat_outline]
  cases tree.stat path with
  | error failure => rfl
  | ok node => cases node <;> rfl

/-! ### New files -/

theorem fromRoot_outline (path : Path) : tree.outline.fromRoot path = tree.fromRoot path := rfl

theorem newPlace_outline (directory : Path) (name : Bytes) :
    tree.outline.newPlace directory name = tree.newPlace directory name := by
  simp only [newPlace, directoryAt, fromRoot_outline, resolve_outline, find_outline_eq_directory]

theorem freshName_outline (path : Path) : tree.outline.freshName path = tree.freshName path := by
  have htaken : tree.outline.entries.flatMap Prod.fst = tree.entries.flatMap Prod.fst := List.flatMap_map _ _ _
  simp only [freshName, htaken]

theorem temporary_outline (output : Path) : tree.outline.temporary output = tree.temporary output := by
  rw [temporary, temporary, fromRoot_outline, freshName_outline]

theorem target_outline (path : Path) : tree.outline.target path = tree.target path := by
  simp only [target, start_outline, walk_outline, ne_eq, find_outline_eq_directory]

end Tree

/-! ## Two runs -/

section Two

variable {a b : Tree} {file : Path}

theorem isFile_eq_of_outline (h : a.outline = b.outline) (path : Path) : a.isFile path = b.isFile path := by
  rw [← Tree.isFile_outline, h, Tree.isFile_outline]

theorem stat_file_of_outline (h : a.outline = b.outline) {path : Path} {mode : Nat} {data : Bytes}
    (hstat : a.stat path = .ok (.file mode data)) :
    ∃ otherData, b.stat path = .ok (.file mode otherData) ∧ otherData.length = data.length := by
  have hboth : (b.stat path).map Node.outline = .ok (Node.file mode data).outline := by
    rw [← Tree.stat_outline, ← h, Tree.stat_outline, hstat]
    rfl
  cases hb : b.stat path with
  | error failure => rw [hb] at hboth; cases hboth
  | ok node =>
    rw [hb] at hboth
    obtain ⟨otherData, hnode, hlength⟩ := Node.outline_eq_file (Except.ok.inj hboth).symm rfl
    exact ⟨otherData, by rw [hnode], hlength⟩

/-- files that are there in one tree are there in the other, with the same lengths -/
theorem Ready.of_outline (h : a.outline = b.outline) {stem keyBytes data : Bytes}
    (hready : Ready a file stem keyBytes data) :
    ∃ otherKey otherData, Ready b file stem otherKey otherData ∧ otherKey.length = keyBytes.length ∧
      otherData.length = data.length := by
  obtain ⟨⟨keyMode, hkey⟩, ⟨mode, hfile⟩, hname⟩ := hready
  obtain ⟨otherKey, hotherKey, hkeyLength⟩ := stat_file_of_outline h hkey
  obtain ⟨otherData, hotherFile, hlength⟩ := stat_file_of_outline h hfile
  exact ⟨otherKey, otherData, ⟨⟨keyMode, hotherKey⟩, ⟨mode, hotherFile⟩, hname⟩, hkeyLength, hlength⟩

/-- if runs on two trees come to a decryption, both fail at it or both plaintexts have one length -/
def SameVerdict (a b : Tree) (file : Path) : Prop :=
  ∀ (stem data otherData : Bytes) (key otherKey : Key),
    Ready a file stem key.toList data → Ready b file stem otherKey.toList otherData →
    (∃ spot, a.newPlace (file.withFileName stem).directory (a.freshName (file.withFileName stem)) = .ok spot) →
    (decryptBytes key data).toOption.map List.length = (decryptBytes otherKey otherData).toOption.map List.length

/-- **Two runs on one outline** that do not differ in the verdict have the same result and log the same -/
theorem run_outline (h : a.outline = b.outline) (hverdict : SameVerdict a b file) :
    ((run a file).result, (run a file).log) = ((run b file).result, (run b file).log) := by
  by_cases hready : ∃ stem keyBytes data, Ready a file stem keyBytes data
  swap
  · have hother : ¬ ∃ stem keyBytes data, Ready b file stem keyBytes data := by
      rintro ⟨stem, keyBytes, data, hb⟩
      obtain ⟨otherKey, otherData, ha, -⟩ := hb.of_outline h.symm
      exact hready ⟨stem, otherKey, otherData, ha⟩
    obtain ⟨hlog, hresult⟩ := run_not_ready hready
    obtain ⟨hotherLog, hotherResult⟩ := run_not_ready hother
    rw [hlog, hresult, hotherLog, hotherResult]
    simp only [isFile_eq_of_outline h]
  obtain ⟨stem, keyBytes, data, ha⟩ := hready
  obtain ⟨otherBytes, otherData, hb, hkeyLength, hlength⟩ := ha.of_outline h
  have htemporary : a.temporary (file.withFileName stem) = b.temporary (file.withFileName stem) := by
    rw [← Tree.temporary_outline, h, Tree.temporary_outline]
  have htarget : a.target (file.withFileName stem) = b.target (file.withFileName stem) := by
    rw [← Tree.target_outline, h, Tree.target_outline]
  have hplace : a.newPlace (file.withFileName stem).directory (a.freshName (file.withFileName stem)) =
      b.newPlace (file.withFileName stem).directory (b.freshName (file.withFileName stem)) := by
    rw [← Tree.newPlace_outline, ← Tree.freshName_outline, h, Tree.newPlace_outline, Tree.freshName_outline]
  rw [run_course ha, run_course hb, htemporary, htarget, hkeyLength, hlength]
  cases hk : Key.ofBytes? keyBytes with
  | none =>
    have hother : Key.ofBytes? otherBytes = none := by
      rw [Key.ofBytes?_eq_none, hkeyLength, ← Key.ofBytes?_eq_none]
      exact hk
    rw [hother]
  | some key =>
    obtain ⟨otherKey, hother⟩ : ∃ otherKey, Key.ofBytes? otherBytes = some otherKey := by
      rw [← Option.ne_none_iff_exists', Ne, Key.ofBytes?_eq_none, hkeyLength, ← Key.ofBytes?_eq_none, hk]
      exact Option.some_ne_none key
    obtain rfl := Key.ofBytes?_eq_some.1 hk
    obtain rfl := Key.ofBytes?_eq_some.1 hother
    rw [hother, ← hplace]
    simp only
    cases hspot : a.newPlace (file.withFileName stem).directory (a.freshName (file.withFileName stem)) with
    | error failure => rfl
    | ok spot =>
      have hsame := hverdict stem data otherData key otherKey ha hb ⟨spot, hspot⟩
      simp only
      cases hd : decryptBytes key data with
      | error error =>
        rw [hd] at hsame
        cases hod : decryptBytes otherKey otherData with
        | error otherError => rw [decryptBytes_fault hd, decryptBytes_fault hod, hlength]
        | ok plaintext => rw [hod] at hsame; cases hsame
      | ok plaintext =>
        rw [hd] at hsame
        cases hod : decryptBytes otherKey otherData with
        | error otherError => rw [hod] at hsame; cases hsame
        | ok otherPlaintext =>
          rw [hod] at hsame
          have hplain : plaintext.length = otherPlaintext.length := Option.some.inj hsame
          simp only [hplain]

end Two

/-- **Of the bytes of files only lengths and the verdict are told.** Take two trees that differ in nothing but the bytes of
files, whose lengths are the same. Let the two runs of a command line, if they come to decrypting with a key of thirty-two
bytes, both fail at that or both get a plaintext of one length. Then the program has the same exit code on both and prints
the same on both channels, whatever is logged and however it ends. -/
theorem program_reveals_lengths {a b : Tree} (htrees : a.outline = b.outline) {line : List Bytes}
    (hverdict : ∀ arguments, Arguments.parse line = .ok arguments → SameVerdict a b arguments.file)
    (setting : Option String) :
    let report := program a setting line
    let otherReport := program b setting line
    report.exitCode = otherReport.exitCode ∧ report.stdout = otherReport.stdout ∧ report.log = otherReport.log ∧
    report.stderr = otherReport.stderr := by
  intro report otherReport
  suffices otherReport = { report with tree := otherReport.tree } by
    rw [this]
    exact ⟨rfl, rfl, rfl, rfl⟩
  cases hparse : Arguments.parse line with
  | error halt =>
    -- such a line is answered without a look at the tree
    simp only [otherReport, report, program, hparse]
    cases halt.answer (calledName line) <;> rfl
  | ok arguments =>
    obtain ⟨hresult, hlog⟩ := Prod.mk.inj (run_outline htrees (hverdict arguments hparse))
    have hreport : report = _ := program_of_parse hparse a setting
    have hotherReport : otherReport = _ := program_of_parse hparse b setting
    rw [hreport, hotherReport, Attempt.report, Attempt.report, hresult, hlog]
    cases (run b arguments.file).result <;> rfl

theorem drawer_outline (key other : Key) (iv otherIv : Block) {plaintext otherPlaintext : Bytes}
    (h : plaintext.length = otherPlaintext.length) :
    (drawer key iv plaintext).outline = (drawer other otherIv otherPlaintext).outline := by
  simp only [Tree.outline, drawer, List.map_cons, List.map_nil, Node.outline, length_encryptBytes, h, Vector.length_toList]

theorem sameVerdict_drawer (key other : Key) (iv otherIv : Block) {plaintext otherPlaintext : Bytes}
    (h : plaintext.length = otherPlaintext.length) :
    SameVerdict (drawer key iv plaintext) (drawer other otherIv otherPlaintext) (farFile 0) := by
  intro stem data otherData found otherFound hready hother _
  obtain ⟨hkey, rfl⟩ := hready.unique (ready_farFile key iv plaintext (Nat.zero_le 4082))
  obtain ⟨hotherKey, rfl⟩ := hother.unique (ready_farFile other otherIv otherPlaintext (Nat.zero_le 4082))
  rw [Vector.toList_inj.1 hkey, Vector.toList_inj.1 hotherKey, decryptBytes_eq_ok.2 ⟨iv, rfl⟩,
    decryptBytes_eq_ok.2 ⟨otherIv, rfl⟩]
  exact congrArg some h

theorem program_reveals_lengths_drawer :
    let a := drawer (.replicate 32 0) (.replicate 16 0) (ascii ['h', 'i'])
    let b := drawer (.replicate 32 1) (.replicate 16 2) (ascii ['h', 'o'])
    let line : List Bytes := [Bytes.ofText programName, (farFile 0).bytes]
    a ≠ b ∧ a.outline = b.outline ∧ SameVerdict a b (farFile 0) ∧
    (program a (some "debug") line).stderr = (program b (some "debug") line).stderr := by
  intro a b line
  have hne : a ≠ b := by
    intro hc
    have hkey := congrArg (Tree.find · [ascii ['d'], ascii ['x', '.', 'a', 'e', 's', '.', 'k', 'e', 'y']]) hc
    exact absurd hkey (by decide)
  have htrees : a.outline = b.outline := drawer_outline _ _ _ _ rfl
  have hverdict : SameVerdict a b (farFile 0) := sameVerdict_drawer _ _ _ _ rfl
  have hlines : ∀ arguments, Arguments.parse line = .ok arguments → SameVerdict a b arguments.file := by
    intro arguments hparse
    rw [parse_farFile] at hparse
    rw [← Except.ok.inj hparse]
    exact hverdict
  obtain ⟨-, -, -, hstderr⟩ := program_reveals_lengths htrees hlines (some "debug")
  exact ⟨hne, htrees, hverdict, hstderr⟩

end CbcFile
