/-
The command line program. It takes a picture of the files that a run may look at, lets `program` decide on the picture,
and carries out the one change that a run can make: a new or replaced output.
-/
import CbcFile.Program

namespace CbcFile.Main

/-- the text by which the system knows a place -/
def systemPath (place : Location) : String :=
  "/" ++ Utf8.display (Path.joinSlash place)

/-- the home directory that relative paths start from -/
def homePlace : IO Location := do
  let home ← IO.currentDir
  return Path.segments ⟨Bytes.ofText home.toString⟩

/-- what stands at a place now; a mode is not looked at, because a file that is replaced keeps it -/
def observe (place : Location) : IO (Option Node) := do
  try
    let _ ← IO.FS.realPath (systemPath place ++ "/.")
    return some .directory
  catch _ =>
    try
      let bytes ← IO.FS.readBinFile (systemPath place)
      return some (.file privateMode bytes.toList)
    catch _ => return none

/-- the places that the walk of a path comes through, the last one first -/
def waypoints (tree : Tree) (path : Path) : List Location :=
  path.segments.foldl (fun passed name =>
    let here := passed.headD []
    let next := if name = Path.dot then here else if name = Path.dotDot then here.dropLast else here ++ [name]
    next :: passed) [tree.start path]

/-- a tree with what stands now at all places that these paths come through -/
def picture (paths : List Path) : IO Tree := do
  let home ← homePlace
  let mut tree : Tree := ⟨home, []⟩
  for place in home :: paths.flatMap (waypoints tree) do
    match ← observe place with
    | some node => tree := tree.put place node
    | none => pure ()
  return tree

/-- writes the output if it is new or has changed; a new one belongs to its owner alone before anything is in it -/
def carryOut (before after : Tree) (output : Path) : IO Unit := do
  let place := before.nominal output
  match after.find place with
  | some (.file _ data) =>
    if before.find place = none then
      IO.FS.writeFile (systemPath place) ""
      IO.setAccessRights (systemPath place) { user := { read := true, write := true } }
    if before.find place ≠ after.find place then
      IO.FS.writeBinFile (systemPath place) (ByteArray.mk data.toArray)
  | _ => pure ()

/-- runs the program on a command line that begins with the program's name -/
def start (line : List Bytes) : IO UInt32 := do
  let setting ← IO.getEnv "RUST_LOG"
  let file? := match Arguments.parse line with
    | .ok arguments => some arguments.file
    | .error _ => none
  let before ← picture ((file?.map relevant).getD [])
  let report := program before setting line
  if report.exitCode = 0 then
    match file?.map companions with
    | some (.ok paths) => carryOut before report.tree paths.output
    | _ => pure ()
  (← IO.getStdout).putStr report.stdout
  (← IO.getStderr).putStr report.stderr
  return UInt32.ofNat report.exitCode

end CbcFile.Main

/-- the entry of the program -/
def main (arguments : List String) : IO UInt32 :=
  CbcFile.Main.start (CbcFile.Bytes.ofText CbcFile.programName :: arguments.map CbcFile.Bytes.ofText)
