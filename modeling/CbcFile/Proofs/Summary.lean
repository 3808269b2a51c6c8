/-
What a finished decryption tells of itself. The length of the encrypted file is that of the open file, taken before
anything is written; the length of the plaintext is counted block by block as it is released. Neither is read off the
output, and yet each fits the tree and the other: bytes decrypt only if encryption gives them (`length_of_plaintext`),
and what the output path names afterwards holds all that was released.

Result:
- `summary_truthful`: the path and the lengths that a summary tells are those of the files, and one length fixes the other
  but for the padding.
-/
import Mathlib.Tactic
import CbcFile.Proofs.Agreement
import CbcFile.Proofs.Stages

namespace CbcFile

/-- **A summary tells the truth.** If a file is decrypted into another, then the summary names the output as it was given,
and tells the length that the encrypted file had before, also if the output has taken its place, and the length of the
file that is the output now. There is an initial vector, the whole blocks of the plaintext, and one more block which ends
in the padding: so the encrypted file has two blocks at least, and is between seventeen and thirty-two bytes longer than
the plaintext. -/
theorem summary_truthful {tree : Tree} {keyFile encrypted output : Path} {summary : Summary}
    (h : (decrypt tree keyFile encrypted output).result = .ok summary) :
    let after := (decrypt tree keyFile encrypted output).tree
    summary.output = output ∧
    (∃ data, tree.read encrypted = .ok data ∧ summary.encrypted = data.length) ∧
    (∃ plaintext, after.read output = .ok plaintext ∧ summary.plaintext = plaintext.length) ∧
    summary.encrypted = 16 * (summary.plaintext / 16 + 2) ∧
    32 ≤ summary.encrypted ∧ summary.plaintext + 17 ≤ summary.encrypted ∧
    summary.encrypted ≤ summary.plaintext + 32 := by
  intro after
  rcases decrypt_cases tree keyFile encrypted output with
    ⟨error, hresult, -⟩ | ⟨key, mode, data, plaintext, goal, -, hfile, hopen, hgoal, hresult, htree⟩
  · rw [hresult] at h
    cases h
  · obtain rfl : ⟨output, data.length, plaintext.length⟩ = summary := Except.ok.inj (hresult.symm.trans h)
    have hbefore : tree.read encrypted = .ok data := Tree.read_of_stat hfile
    have hafter : after.read output = .ok plaintext := by
      rw [show after = _ from htree]
      exact Tree.read_of_stat (Tree.stat_put_target hgoal)
    have hlength : data.length = 16 * (plaintext.length / 16 + 2) := length_of_plaintext hopen
    refine ⟨rfl, ⟨data, hbefore, rfl⟩, ⟨plaintext, hafter, rfl⟩, hlength, ?_, ?_, ?_⟩
    all_goals
      simp only
      omega

/-- a file decrypted into itself: the summary tells the length from before, which the file no longer has -/
theorem summary_truthful_shelf :
    let keyFile : Path := ⟨ascii ['k']⟩
    let file : Path := ⟨ascii ['e']⟩
    (decrypt shelf keyFile file file).result = .ok ⟨file, 32, 2⟩ ∧ (∃ data, shelf.read file = .ok data ∧ 32 = data.length) ∧
    ∃ plaintext, (decrypt shelf keyFile file file).tree.read file = .ok plaintext ∧ 2 = plaintext.length := by
  intro keyFile file
  have hkey : shelf.read keyFile = .ok (Vector.replicate 32 0).toList := rfl
  have hfile : shelf.stat file =
      .ok (.file 0o644 (encryptBytes (.replicate 32 0) (.replicate 16 0) (ascii ['h', 'i']))) := rfl
  have hspot : shelf.newPlace file.directory (shelf.freshName file) = .ok [shelf.freshName file] := rfl
  have hgoal : shelf.target file = .ok [ascii ['e']] := rfl
  have hopen : decryptBytes (.replicate 32 0) (encryptBytes (.replicate 32 0) (.replicate 16 0) (ascii ['h', 'i'])) =
      .ok (ascii ['h', 'i']) := decryptBytes_eq_ok.2 ⟨_, rfl⟩
  have hsucceeds : Request.Succeeds ⟨shelf, keyFile, file, file⟩ _ := .intro hkey hfile hspot hopen hgoal
  have hresult := hsucceeds.result
  rw [length_encryptBytes] at hresult
  have hdone : (decrypt shelf keyFile file file).result = .ok ⟨file, 32, 2⟩ := hresult
  obtain ⟨-, hbefore, hafter, -⟩ := summary_truthful hdone
  exact ⟨hdone, hbefore, hafter⟩

end CbcFile
