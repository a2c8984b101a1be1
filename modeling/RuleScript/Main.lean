import RuleScript.CommandLine.Run

/-!
# The program

Looks up the files that a command line asks for, prints what comes of it or writes it to a file,
and ends with a code that says whether all was well: 0 if it was, 1 if not, 2 if the command line
could not be understood.
-/

namespace RuleScript.CommandLine

/-- The number of the error that a directory cannot be read like a file. -/
def directoryError : UInt32 := 21

/-- The numbers of the error that a path or a name in it is too long; some calls give it negated. -/
def tooLongErrors : List UInt32 := [36, -36]

/-- What can be read at a path is a file if it is one by its kind.  A pipe has no path of its own. -/
def readable (path : String) (content : Content) : IO Entry := do
  try
    let key ← IO.FS.realPath path
    match (← key.metadata).type with
    | .file => return .file key.toString content
    | _ => return .stream content
  catch _ => return .stream content

/-- What a path leads to in the file system. -/
def lookUp (path : String) : IO Entry := do
  try
    readable path (.ofBytes (← IO.FS.readBinFile path))
  catch
    | .inappropriateType _ number _ =>
      return if number = directoryError then .directory else .nothing .throughFile
    | .invalidArgument _ number _ =>
      return .nothing (if number ∈ tooLongErrors then .tooLong else .missing)
    | _ => return .nothing .missing

/-- Run a command, and run it again with one more path looked up as often as it needs one. -/
partial def runLookingUp (i : Invocation) (snapshot : Snapshot) :
    IO (Except CommandError Report) := do
  let result := i.run snapshot.toFiles
  match i.awaited? snapshot result with
  | none => return result
  | some path => runLookingUp i ((path, ← lookUp path) :: snapshot)

/-- Print a report, or write it to the file it is meant for. -/
def deliver (report : Report) : IO UInt32 :=
  match report.target with
  | some file => do
    IO.FS.writeFile file report.output
    return 0
  | none => do
    IO.print report.output
    return if report.success then 0 else 1

end RuleScript.CommandLine

open RuleScript.CommandLine in
def main (arguments : List String) : IO UInt32 := do
  match Invocation.ofArguments arguments with
  | .error error =>
    if error.isRequest then
      IO.println error.message
      return 0
    IO.eprintln error.message
    return 2
  | .ok invocation =>
    match ← runLookingUp invocation [] with
    | .ok report => deliver report
    | .error error =>
      IO.eprintln error.message
      return 1
