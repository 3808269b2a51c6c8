/-
What the log setting can do. A run is the same whatever the setting and the flags are; they choose a filter, and the
filter chooses events, each by itself, from the one log of the run. A filter up to a level is ordered by its level
(`upTo_sublist`), and no event of a run is as important as an error (`rank_level`), so the quiet flag leaves nothing.

Result:
- `settings_only_select`: two runs of the program that differ in setting and flags agree in everything but the events
  that they show; how these are chosen.
-/
import Mathlib.Tactic
import CbcFile.Proofs.History

namespace CbcFile

/-! ## Filters up to a level -/

theorem Event.rank_level (event : Event) : 3 ≤ event.level.rank := by
  cases event <;> exact Nat.le_of_ble_eq_true rfl

namespace LogFilter

/-- a filter up to a level looks at nothing but the level of an event -/
theorem allows_upTo (level : Level) (event : Event) :
    (upTo level).allows event = decide (event.level.rank ≤ level.rank) := by
  have hcovers : (⟨"", .all, some level⟩ : Directive).covers event = true := by
    simp [Directive.covers, Scope.covers]
  have hdeciding : (upTo level).deciding? event = some ⟨"", .all, some level⟩ := by
    rw [deciding?, upTo, List.filter_singleton, hcovers]
    rfl
  rw [allows, hdeciding]
  rfl

/-- **A filter up to a higher level** shows more, in the same order -/
theorem upTo_sublist {level other : Level} (h : level.rank ≤ other.rank) (events : List Event) :
    List.Sublist (events.filter (upTo level).allows) (events.filter (upTo other).allows) := by
  refine List.monotone_filter_right events fun event hevent => ?_
  rw [allows_upTo, decide_eq_true_eq] at hevent ⊢
  exact hevent.trans h

/-- up to errors, nothing of a run is shown -/
theorem filter_upTo_error (events : List Event) : events.filter (upTo .error).allows = [] := by
  refine List.filter_eq_nil_iff.2 fun event _ => ?_
  have hrank := event.rank_level
  rw [allows_upTo, decide_eq_true_eq, show Level.error.rank = 1 from rfl]
  omega

/-- an empty setting is one that lets errors pass -/
theorem parse?_empty : parse? "" = some (upTo .error) := by
  have hpieces : "".splitOn "," = [""] := by
    rw [String.splitOn, if_neg (by decide), String.splitOnAux]
    rfl
  rw [parse?, hpieces]
  rfl

end LogFilter

/-! ## The filter of a run -/

section Chosen

variable {setting : Option String}

/-- a setting that can be read is the filter, whatever the flags are -/
theorem chosenFilter_of_some {filter : LogFilter} (h : setting.bind LogFilter.parse? = some filter)
    (verbosity : Verbosity) : chosenFilter setting verbosity = filter := by
  rw [chosenFilter, h, Option.getD_some]

/-- without such a setting the flags are -/
theorem chosenFilter_of_none (h : setting.bind LogFilter.parse? = none) (verbosity : Verbosity) :
    chosenFilter setting verbosity = .upTo verbosity.level := by
  rw [chosenFilter, h, Option.getD_none]

end Chosen

/-- what is shown of the log changes nothing else -/
theorem Attempt.report_eq (attempt : Attempt Summary) (log other : List Event) :
    attempt.report other = { attempt.report log with log := other } := by
  unfold report
  cases attempt.result <;> rfl

/-- **The log setting and the flags only select.** Take two command lines that are accepted and ask for the same file, on
the same tree, with any two settings. The exit code, the standard output, the tree and the error at the end of standard
error are the same, and what stands before it are the lines of the events that a filter lets through, of one and the same
log. The filter is the setting, if it can be read; if there is none, or none that can be read, it is the level of the
flags. Then a flag for a higher level shows the lines of the lower one and perhaps more between them, and a quiet run that
succeeds prints nothing. -/
theorem settings_only_select (tree : Tree) {file : Path} {verbosity otherVerbosity : Verbosity} {line other : List Bytes}
    (hline : Arguments.parse line = .ok ⟨file, verbosity⟩) (hother : Arguments.parse other = .ok ⟨file, otherVerbosity⟩)
    (setting otherSetting : Option String) :
    let report := program tree setting line
    let otherReport := program tree otherSetting other
    let log := (run tree file).log
    let lines := report.log.map Event.line
    let otherLines := otherReport.log.map Event.line
    report.exitCode = otherReport.exitCode ∧ report.stdout = otherReport.stdout ∧ report.tree = otherReport.tree ∧
    (∃ closing, report.stderr = String.join lines ++ closing ∧ otherReport.stderr = String.join otherLines ++ closing) ∧
    List.Sublist report.log log ∧ List.Sublist otherReport.log log ∧
    (∀ filter, setting.bind LogFilter.parse? = some filter → report.log = log.filter filter.allows) ∧
    (setting.bind LogFilter.parse? = none →
      report.log = log.filter (fun event => event.level.rank ≤ verbosity.level.rank) ∧
      (otherSetting.bind LogFilter.parse? = none → verbosity.level.rank ≤ otherVerbosity.level.rank →
        List.Sublist lines otherLines) ∧
      (verbosity = .quiet → report.exitCode = 0 → report.stdout = "" ∧ report.stderr = "")) := by
  intro report otherReport log lines otherLines
  have hreport : report = (run tree file).report (log.filter (chosenFilter setting verbosity).allows) :=
    program_of_parse hline tree setting
  have hotherReport : otherReport = (run tree file).report (log.filter (chosenFilter otherSetting otherVerbosity).allows) :=
    program_of_parse hother tree otherSetting
  have hsame : otherReport = { report with log := otherReport.log } := by
    rw [hreport, hotherReport, Attempt.report_log]
    exact Attempt.report_eq _ _ _
  have hlog : report.log = log.filter (chosenFilter setting verbosity).allows := by rw [hreport, Attempt.report_log]
  have hotherLog : otherReport.log = log.filter (chosenFilter otherSetting otherVerbosity).allows := by
    rw [hotherReport, Attempt.report_log]
  have hclosing : otherReport.closing = _ := congrArg Report.closing hsame
  refine ⟨(congrArg Report.exitCode hsame).symm, (congrArg Report.stdout hsame).symm, (congrArg Report.tree hsame).symm,
    ⟨report.closing, rfl, ?_⟩, ?_, ?_, fun filter hfilter => ?_, fun hnone => ⟨?_, ?_, ?_⟩⟩
  · rw [Report.stderr, hclosing]
  · rw [hlog]
    exact List.filter_sublist
  · rw [hotherLog]
    exact List.filter_sublist
  · rw [hlog, chosenFilter_of_some hfilter]
  · rw [hlog, chosenFilter_of_none hnone]
    exact congrArg (log.filter ·) (funext (LogFilter.allows_upTo _))
  · intro hnone' hlevel
    have hsub := LogFilter.upTo_sublist hlevel log
    rw [← chosenFilter_of_none hnone, ← chosenFilter_of_none hnone', ← hlog, ← hotherLog] at hsub
    exact hsub.map Event.line
  · rintro rfl hexit
    rw [hreport, Attempt.report_exitCode] at hexit
    obtain ⟨summary, hresult⟩ := hexit
    have hempty : report.log = [] := by
      rw [hlog, chosenFilter_of_none hnone]
      exact LogFilter.filter_upTo_error log
    have hend : report.closing = "" := by
      rw [hreport, Attempt.report, hresult]
    refine ⟨by rw [hreport, Attempt.report_stdout], ?_⟩
    rw [Report.stderr, hempty, hend]
    rfl

theorem settings_only_select_drawer :
    let tree := drawer (.replicate 32 0) (.replicate 16 0) (ascii ['h', 'i'])
    let quiet : List Bytes := [Bytes.ofText programName, ascii ['-', 'q'], (farFile 0).bytes]
    let plain : List Bytes := [Bytes.ofText programName, (farFile 0).bytes]
    Arguments.parse quiet = .ok ⟨farFile 0, .quiet⟩ ∧ Arguments.parse plain = .ok ⟨farFile 0, .normal⟩ ∧
    (program tree none quiet).exitCode = 0 ∧
    (program tree none quiet).stdout = "" ∧ (program tree none quiet).stderr = "" ∧
    (program tree none quiet).tree = (program tree (some "") plain).tree ∧
    LogFilter.parse? "" = some (.upTo .error) ∧
    (program tree (some "") plain).log = (run tree (farFile 0)).log.filter (LogFilter.upTo .error).allows := by
  intro tree quiet plain
  have hquiet : Arguments.parse quiet = .ok ⟨farFile 0, .quiet⟩ := by decide
  have hexit : (program tree none quiet).exitCode = 0 := by
    rw [program_of_parse hquiet, Attempt.report_exitCode]
    exact run_drawer _ _ _
  obtain ⟨-, -, htree, -, -, -, -, hflags⟩ := settings_only_select tree hquiet (parse_farFile 0) none (some "")
  obtain ⟨hstdout, hstderr⟩ := (hflags rfl).2.2 rfl hexit
  obtain ⟨-, -, -, -, -, -, hchosen, -⟩ := settings_only_select tree (parse_farFile 0) hquiet (some "") none
  exact ⟨hquiet, parse_farFile 0, hexit, hstdout, hstderr, htree, LogFilter.parse?_empty, hchosen _ LogFilter.parse?_empty⟩

end CbcFile
