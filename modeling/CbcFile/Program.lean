/-
The program as a function: a tree, a log setting and a command line in; exit code, output, log and tree out. The log
setting, when there is one that can be read, wins over the flags; neither changes anything but which events are shown.
-/
import CbcFile.FileDecrypt
import CbcFile.LogFilter
import CbcFile.Usage

namespace CbcFile

/-! ## Arguments -/

/-- how much is logged when there is no other setting -/
def Verbosity.level : Verbosity → Level
  | .quiet => .error
  | .normal => .info
  | .verbose => .debug

/-- what a command line that asks for no decryption is answered with: a text, or a usage error -/
def Halt.answer (called : String) : Halt → Except DecryptError String
  | .help => .ok (helpText called)
  | .version => .ok versionText
  | .fault cause => .error (.usage (cause.text called))

/-! ## A run -/

/-- decrypts a file by its name: the key file and the encrypted file must be there before the name is looked at -/
def run (tree : Tree) (file : Path) : Attempt Summary :=
  if ¬ tree.isFile (keyPath file) then ⟨.error (.missingFile .key (keyPath file)), [], tree⟩
  else if ¬ tree.isFile file then ⟨.error (.missingFile .encrypted file), [], tree⟩
  else
    match companions file with
    | .error error => ⟨.error error, [], tree⟩
    | .ok paths =>
      let attempt := decrypt tree paths.key paths.encrypted paths.output
      { attempt with events := .resolvedPaths paths :: attempt.events }

/-- all that a run logs: its events and, if it succeeds, that it did -/
def Attempt.log (attempt : Attempt Summary) : List Event :=
  match attempt.result with
  | .ok summary => attempt.events ++ [.succeeded summary.output summary.plaintext]
  | .error _ => attempt.events

/-! ## The whole program -/

/-- what is seen of a finished program -/
structure Report where
  exitCode : Nat
  stdout : String
  /-- the events that passed the filter -/
  log : List Event
  /-- what stands after them on standard error -/
  closing : String
  tree : Tree

namespace Report

/-- everything on standard error -/
def stderr (report : Report) : String :=
  String.join (report.log.map Event.line) ++ report.closing

end Report

/-- an error as it is reported at the end: a usage error has its whole text already -/
def DecryptError.report : DecryptError → String
  | .usage text => text
  | error => "Error: " ++ error.message ++ "\n"

/-- the filter of a run -/
def chosenFilter (setting : Option String) (verbosity : Verbosity) : LogFilter :=
  (setting.bind LogFilter.parse?).getD (LogFilter.upTo verbosity.level)

/-- the program -/
def program (tree : Tree) (setting : Option String) (line : List Bytes) : Report :=
  match Arguments.parse line with
  | .error halt =>
    match halt.answer (calledName line) with
    | .ok text => ⟨0, text, [], "", tree⟩
    | .error error => ⟨1, "", [], error.report, tree⟩
  | .ok arguments =>
    let attempt := run tree arguments.file
    let log := attempt.log.filter (chosenFilter setting arguments.verbosity).allows
    match attempt.result with
    | .ok _ => ⟨0, "", log, "", attempt.tree⟩
    | .error error => ⟨1, "", log, error.report, attempt.tree⟩

end CbcFile
