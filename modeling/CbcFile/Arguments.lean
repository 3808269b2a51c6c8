/-
The command line: one encrypted file, quiet or verbose. Arguments are handled from left to right and the first one that
cannot be accepted ends the walk, as does a request for help or for the version. What concerns all arguments together is
looked at after the walk.

`Arguments.parse` ends with the arguments, or with a `Halt`: a request, or a `UsageFault` that holds what its text
needs. Parts of arguments stand in a fault as they are shown, but flags are told apart by the bytes that were given.
-/
import CbcFile.Path
import CbcFile.Similarity
import CbcFile.Text.Terminal

namespace CbcFile

/-! ## Flags -/

/-- the flags of the program -/
inductive Flag where
  | quiet
  | verbose
  | help
  | version
deriving DecidableEq, Repr

namespace Flag

/-- all flags, in the order in which they are suggested -/
def all : List Flag := [.quiet, .verbose, .help, .version]

/-- the long name -/
def long : Flag → String
  | .quiet => "quiet"
  | .verbose => "verbose"
  | .help => "help"
  | .version => "version"

/-- the letter -/
def letter : Flag → Char
  | .quiet => 'q'
  | .verbose => 'v'
  | .help => 'h'
  | .version => 'V'

/-- the long name as bytes -/
def longBytes (flag : Flag) : Bytes :=
  ascii flag.long.toList

/-- the flag with this long name -/
def ofLong? (name : Bytes) : Option Flag :=
  all.find? fun flag => flag.longBytes = name

/-- the flag with this letter -/
def ofLetter? (c : Char) : Option Flag :=
  all.find? fun flag => flag.letter = c

/-- the flag whose long name is near to this name -/
def similar? (name : Bytes) : Option Flag :=
  Similarity.closest? (fun flag => flag.long.toList) (Utf8.display name).toList all

end Flag

/-! ## What the walk ends with -/

/-- how much is logged -/
inductive Verbosity where
  | quiet
  | normal
  | verbose
deriving DecidableEq, Repr

/-- arguments that can be accepted -/
structure Arguments where
  file : Path
  verbosity : Verbosity
deriving DecidableEq, Repr

/-- what is wrong with the arguments -/
inductive UsageFault where
  /-- a letter, or a broken run of bytes, that is no flag -/
  | unknownLetter (shown : String)
  /-- a long name that is no flag, near to one that is, after the flags given -/
  | misspelled (shown : String) (near : Flag) (given : List Flag)
  /-- a long name that is near to no flag; `bare` says that it is the first argument -/
  | unknownLong (shown : String) (given : List Flag) (bare : Bool)
  /-- a second file -/
  | unexpected (shown : String)
  /-- a value for a flag, none of which takes one; `later` says that another flag came before -/
  | valueGiven (shown : String) (flag : Flag) (later : Bool)
  | repeated (flag : Flag)
  /-- an empty file name -/
  | emptyFile
  | conflict (first second : Flag)
  | missingFile (given : List Flag)
deriving DecidableEq, Repr

/-- why the walk ends before the arguments are known -/
inductive Halt where
  | help
  | version
  | fault (fault : UsageFault)
deriving DecidableEq, Repr

/-! ## The walk -/

/-- an argument or a part of one as a fault shows it, without commands to the terminal -/
def shownPart (part : Bytes) : String :=
  Terminal.plain (Utf8.display part)

/-- what the walk has seen: quiet and verbose in the order given, and the file -/
structure Seen where
  flags : List Flag
  file : Option Bytes
deriving DecidableEq, Repr

namespace Seen

/-- before the first argument -/
def nothing : Seen :=
  ⟨[], none⟩

/-- a flag met: an empty file name before it is noticed first, help and version act at once -/
def takeFlag (seen : Seen) (flag : Flag) : Except Halt Seen :=
  if seen.file = some [] then .error (.fault .emptyFile)
  else match flag with
    | .help => .error .help
    | .version => .error .version
    | flag =>
      if flag ∈ seen.flags then .error (.fault (.repeated flag))
      else .ok { seen with flags := seen.flags ++ [flag] }

/-- a positional argument met -/
def takeFile (seen : Seen) (bytes : Bytes) : Except Halt Seen :=
  match seen.file with
  | none => .ok { seen with file := some bytes }
  | some _ => .error (.fault (.unexpected (shownPart bytes)))

/-- a letter of a short group met -/
def takeLetter (seen : Seen) (c : Char) : Except Halt Seen :=
  match Flag.ofLetter? c with
  | some flag => seen.takeFlag flag
  | none => .error (.fault (.unknownLetter (Terminal.plain (String.singleton c))))

/-- a short group met: its letters in order, then what of it is no text, which counts as one letter -/
def takeGroup (seen : Seen) (group : Bytes) : Except Halt Seen :=
  let (letters, broken) := Utf8.validSpan group
  match letters.foldlM takeLetter seen with
  | .error halt => .error halt
  | .ok seen => if broken = [] then .ok seen else .error (.fault (.unknownLetter (shownPart broken)))

/-- the byte between a long name and its value -/
def equals : UInt8 := 0x3D

/-- a long argument met, without its two dashes -/
def takeLong (seen : Seen) (text : Bytes) : Except Halt Seen :=
  let name := text.takeWhile (· ≠ equals)
  match Flag.ofLong? name, text.drop name.length with
  | some flag, [] => seen.takeFlag flag
  | some flag, _ :: value => .error (.fault (.valueGiven (shownPart value) flag (seen.flags ≠ [])))
  | none, _ =>
    match Flag.similar? name with
    | some near => .error (.fault (.misspelled (shownPart name) near seen.flags))
    | none => .error (.fault (.unknownLong (shownPart name) seen.flags (seen = nothing)))

/-- the end of the arguments -/
def finish (seen : Seen) : Except Halt Arguments :=
  match seen.file, seen.flags with
  | some [], _ => .error (.fault .emptyFile)
  | _, first :: second :: _ => .error (.fault (.conflict first second))
  | none, flags => .error (.fault (.missingFile flags))
  | some file, [] => .ok ⟨⟨file⟩, .normal⟩
  | some file, [flag] => .ok ⟨⟨file⟩, if flag = .quiet then .quiet else .verbose⟩

end Seen

/-- the byte that flags begin with -/
def dash : UInt8 := 0x2D

/-- one argument before the first `--` -/
def Seen.take (seen : Seen) : Bytes → Except Halt Seen
  | first :: second :: rest =>
    if first ≠ dash then seen.takeFile (first :: second :: rest)
    else if second = dash then seen.takeLong rest
    else seen.takeGroup (second :: rest)
  | short => seen.takeFile short

/-- walks the arguments; after the first `--` all of them are positional -/
def Seen.walk (seen : Seen) : List Bytes → Except Halt Seen
  | [] => .ok seen
  | argument :: rest =>
    if argument = [dash, dash] then rest.foldlM takeFile seen
    else match seen.take argument with
      | .error halt => .error halt
      | .ok seen => seen.walk rest

/-- the arguments in a command line that begins with the program's name -/
def Arguments.parse (line : List Bytes) : Except Halt Arguments :=
  match Seen.nothing.walk line.tail with
  | .error halt => .error halt
  | .ok seen => seen.finish

end CbcFile
