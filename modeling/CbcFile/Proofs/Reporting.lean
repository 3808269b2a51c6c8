/-
What is seen from outside when the program has ended: exit code, standard output, standard error and the tree.

Only arguments that cannot be understood are a usage error (`run_error_ne_usage`), so whatever a run fails with is told in
the same way, after the log. A command line that is refused, or asks for help or the version, starts no run at all
(`program_of_halt`); one that is accepted is a run (`program_of_parse`).

Result:
- `program_reports`: the exit code is zero exactly for success, help and version, and one otherwise; what stands on both
  streams in each case; every exit code but zero leaves the tree as it was.
-/
import Mathlib.Tactic
import CbcFile.Proofs.History

namespace CbcFile

/-! ## Texts -/

theorem helpText_ne_empty (called : String) : helpText called ≠ "" := by
  intro h
  obtain ⟨-, hend⟩ := String.append_eq_empty_iff.1 h
  exact absurd hend (by decide)

theorem versionText_ne_empty : versionText ≠ "" := by
  decide

/-! ## Errors of a run -/

theorem inFile_eq_usage {path : Path} {error : DecryptError} {text : String} :
    error.inFile path = .usage text ↔ error = .usage text := by
  cases error <;> simp [DecryptError.inFile]

/-- **A run fails for what it finds**, never for how it was called -/
theorem run_error_ne_usage {tree : Tree} {file : Path} {error : DecryptError}
    (h : (run tree file).result = .error error) (text : String) : error ≠ .usage text := by
  rintro rfl
  by_cases hready : ∃ stem keyBytes data, Ready tree file stem keyBytes data
  swap
  · obtain ⟨-, hresult⟩ := run_not_ready hready
    rw [hresult] at h
    split_ifs at h <;> cases h
  obtain ⟨stem, keyBytes, data, hready⟩ := hready
  rw [hready.run_eq] at h
  -- every stage has its own error, and none of them is this one
  cases hkey : Key.ofBytes? keyBytes with
  | none => rw [hkey] at h; cases h
  | some key =>
    simp only [hkey] at h
    cases hspot : tree.newPlace (file.withFileName stem).directory (tree.freshName (file.withFileName stem)) with
    | error failure => rw [hspot] at h; cases h
    | ok spot =>
      simp only [hspot] at h
      cases hb : decryptBytes key data with
      | error fault =>
        simp only [hb] at h
        have husage := inFile_eq_usage.1 (Except.error.inj h)
        rcases decryptBytes_error hb with hf | ⟨cause, hf⟩ <;> rw [hf] at husage <;> cases husage
      | ok plaintext =>
        simp only [hb] at h
        cases ht : tree.target (file.withFileName stem) with
        | error failure => rw [ht] at h; cases h
        | ok goal => rw [ht] at h; cases h

/-! ## Reports -/

namespace Attempt

variable {attempt : Attempt Summary} {log : List Event}

/-- after a success nothing stands on standard error but the log -/
theorem report_stderr_of_ok {summary : Summary} (h : attempt.result = .ok summary) :
    (attempt.report log).stderr = String.join (log.map Event.line) := by
  rw [report, h]
  exact String.append_empty

/-- after a failure its message stands there last -/
theorem report_stderr_of_error {error : DecryptError} (h : attempt.result = .error error)
    (hne : ∀ text, error ≠ .usage text) :
    (attempt.report log).stderr = String.join (log.map Event.line) ++ ("Error: " ++ error.message ++ "\n") := by
  have hreport : error.report = "Error: " ++ error.message ++ "\n" := by
    cases error with
    | usage text => exact absurd rfl (hne text)
    | missingFile _ _ | badExtension _ | inputTooSmall _ | cipher _ | io _ _ => rfl
  rw [← hreport, report, h]
  rfl

end Attempt

/-- what is seen of a program that has started no run -/
def Halt.report (tree : Tree) (called : String) : Halt → Report
  | .help => ⟨0, helpText called, [], "", tree⟩
  | .version => ⟨0, versionText, [], "", tree⟩
  | .fault cause => ⟨1, "", [], cause.text called, tree⟩

/-- **Any other arguments** make the program answer at once -/
theorem program_of_halt {line : List Bytes} {halt : Halt} (h : Arguments.parse line = .error halt) (tree : Tree)
    (setting : Option String) : program tree setting line = halt.report tree (calledName line) := by
  rw [program, h]
  cases halt <;> rfl

/-! ## The program seen from outside -/

/-- **What the program reports.** It exits with zero exactly if the arguments ask for help or the version, or are accepted
and the run succeeds, and with one otherwise. Something stands on standard output exactly for help and version: their
text. If the arguments are refused, or ask for one of the two, the tree stays as it is and nothing is logged; all that
stands on standard error is the text on the usage, for arguments that are refused. If a run fails, the tree stays as it is
too, and on standard error the selected lines of the log are followed by the message of its error; if it succeeds, there
are only lines of the log, and the tree is the one it left. -/
theorem program_reports (tree : Tree) (setting : Option String) (line : List Bytes) :
    let report := program tree setting line
    let parsed := Arguments.parse line
    let lines := String.join (report.log.map Event.line)
    (report.exitCode = 0 ↔ parsed = .error .help ∨ parsed = .error .version ∨
      ∃ arguments summary, parsed = .ok arguments ∧ (run tree arguments.file).result = .ok summary) ∧
    (report.exitCode ≠ 0 → report.exitCode = 1 ∧ report.tree = tree) ∧
    (report.stdout ≠ "" ↔ parsed = .error .help ∨ parsed = .error .version) ∧
    match parsed with
    | .error halt => report.tree = tree ∧ report.log = [] ∧
      (report.stdout, report.stderr) =
        match halt with
        | .help => (helpText (calledName line), "")
        | .version => (versionText, "")
        | .fault cause => ("", cause.text (calledName line))
    | .ok arguments =>
      let attempt := run tree arguments.file
      report.log = attempt.log.filter (chosenFilter setting arguments.verbosity).allows ∧
      match attempt.result with
      | .error error => report.tree = tree ∧ report.stderr = lines ++ ("Error: " ++ error.message ++ "\n")
      | .ok _ => report.tree = attempt.tree ∧ report.stderr = lines := by
  intro report parsed lines
  cases hparse : Arguments.parse line with
  | error halt =>
    have hreport : report = halt.report tree (calledName line) := program_of_halt hparse tree setting
    rw [show parsed = .error halt from hparse, hreport]
    cases halt with
    | help => simp [Halt.report, Report.stderr, helpText_ne_empty]
    | version => simp [Halt.report, Report.stderr, versionText_ne_empty]
    | fault cause => simp [Halt.report, Report.stderr]
  | ok arguments =>
    have hreport : report = (run tree arguments.file).report _ := program_of_parse hparse tree setting
    have hlog : report.log = _ := (congrArg Report.log hreport).trans Attempt.report_log
    have hstdout : report.stdout = "" := by rw [hreport, Attempt.report_stdout]
    have hexit : report.exitCode = 0 ↔ ∃ summary, (run tree arguments.file).result = .ok summary := by
      rw [hreport, Attempt.report_exitCode]
    rw [show parsed = .ok arguments from hparse]
    refine ⟨by rw [hexit]; simp, ?_, by simp [hstdout], hlog, ?_⟩
    · intro hfail
      cases hresult : (run tree arguments.file).result with
      | error error =>
        rw [hreport, Attempt.report_exitCode_of_error hresult, Attempt.report_tree, run_tree_of_error hresult]
        exact ⟨rfl, rfl⟩
      | ok summary => exact absurd (hexit.2 ⟨summary, hresult⟩) hfail
    · simp only [lines, hlog]
      rw [hreport, Attempt.report_tree]
      cases hresult : (run tree arguments.file).result with
      | error error =>
        exact ⟨run_tree_of_error hresult, Attempt.report_stderr_of_error hresult (run_error_ne_usage hresult)⟩
      | ok summary => exact ⟨rfl, Attempt.report_stderr_of_ok hresult⟩

end CbcFile
