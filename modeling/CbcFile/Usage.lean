/-
The texts of the command line: help, version, and what is said about arguments that cannot be accepted. A fault's text
has a head, for some faults a tip and a usage line, and ends in a pointer to the help.
-/
import CbcFile.Arguments

namespace CbcFile

/-- the name of the program -/
def programName : String := "aescbc-decrypt"

/-- how the program calls itself: the file name it was started by, if there is one and it is text, without commands to
the terminal -/
def calledName (line : List Bytes) : String :=
  let started := line.head?.bind fun first => Path.fileName? ⟨first⟩
  Terminal.plain ((started.bind Utf8.text?).getD programName)

/-- what `--version` prints -/
def versionText : String := programName ++ " 0.1.0\n"

/-- what `--help` prints -/
def helpText (called : String) : String :=
  "Decrypt an AES-256-CBC file (IV || ciphertext) using the raw key in <FILE>.key\n\n" ++
  "Usage: " ++ called ++ " [OPTIONS] <FILE>\n\n" ++
  "Arguments:\n" ++
  "  <FILE>  Encrypted file; must end in `.aes`. The key is read from `<FILE>.key`\n\n" ++
  "Options:\n" ++
  "  -q, --quiet    Only log errors\n" ++
  "  -v, --verbose  Log each decryption stage\n" ++
  "  -h, --help     Print help\n" ++
  "  -V, --version  Print version\n"

namespace UsageFault

/-- a flag as it is written -/
def written (flag : Flag) : String := "--" ++ flag.long

/-- flags and then the file -/
def flagsThenFile (flags : List Flag) : String :=
  String.join (flags.map fun flag => written flag ++ " ") ++ "<FILE>"

/-- the usage of which nothing more is known -/
def anyUsage : String := "[OPTIONS] <FILE>"

/-- what is wrong -/
def head : UsageFault → String
  | unknownLetter shown => s!"unexpected argument '-{shown}' found"
  | misspelled shown _ _ => s!"unexpected argument '--{shown}' found"
  | unknownLong shown _ _ => s!"unexpected argument '--{shown}' found"
  | unexpected shown => s!"unexpected argument '{shown}' found"
  | valueGiven shown flag _ => s!"unexpected value '{shown}' for '{written flag}' found; no more were expected"
  | repeated flag => s!"the argument '{written flag}' cannot be used multiple times"
  | emptyFile => "a value is required for '<FILE>' but none was supplied"
  | conflict first second => s!"the argument '{written first}' cannot be used with '{written second}'"
  | missingFile _ => "the following required arguments were not provided:\n  <FILE>"

/-- what may have been meant -/
def tip? : UsageFault → Option String
  | unknownLetter shown => some s!"to pass '-{shown}' as a value, use '-- -{shown}'"
  | misspelled _ near _ => some s!"a similar argument exists: '{written near}'"
  | unknownLong shown _ _ => some s!"to pass '--{shown}' as a value, use '-- --{shown}'"
  | _ => none

/-- how the program would be used -/
def usage? : UsageFault → Option String
  | unknownLetter _ => some anyUsage
  | misspelled _ near given => some (flagsThenFile (if near ∈ given then given else given ++ [near]))
  | unknownLong _ given bare => some (if bare then anyUsage else flagsThenFile given)
  | unexpected _ => some anyUsage
  | valueGiven _ flag false => some (flagsThenFile [flag])
  | valueGiven _ flag true =>
    let either := "<FILE|--quiet|--verbose>"
    some (if flag = .help ∨ flag = .version then written flag ++ " " ++ either else either)
  | repeated _ => some anyUsage
  | emptyFile => none
  | conflict first _ => some (flagsThenFile [first])
  | missingFile given => some (flagsThenFile given)

/-- the whole text about a fault -/
def text (called : String) (fault : UsageFault) : String :=
  let tip := match fault.tip? with
    | some tip => "  tip: " ++ tip ++ "\n\n"
    | none => ""
  let usage := match fault.usage? with
    | some usage => "Usage: " ++ called ++ " " ++ usage ++ "\n\n"
    | none => ""
  "error: " ++ fault.head ++ "\n\n" ++ tip ++ usage ++ "For more information, try '--help'.\n"

end UsageFault

end CbcFile
