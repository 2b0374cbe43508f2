import Recheck.Command.Run

/-!
# The program

Reads the tree of files below the working directory, runs the command that the arguments name and prints
what it answers. A worker looks at the files anew for every line of its input.
-/

set_option autoImplicit false

namespace Recheck.Main

/-- The tree of a directory entry. What cannot be read is left empty. -/
partial def snapshot (entry : IO.FS.DirEntry) : IO DiskNode := do
  try
    if ← entry.path.isDir then
      let mut entries := []
      for inner in ← entry.path.readDir do
        entries := (inner.fileName, ← snapshot inner) :: entries
      return .directory entries.reverse
    else return .file (String.fromUTF8? (← IO.FS.readBinFile entry.path))
  catch _ => return .directory []

/-- The files that can be seen from the working directory. -/
def disk : IO Disk := do
  let cwd ← IO.currentDir
  let names := (Path.components ⟨cwd.toString⟩).filterMap fun
    | .name s => some s
    | _ => none
  let tree ← snapshot ⟨cwd, "."⟩
  return ⟨DiskNode.put tree names default, names⟩

/-- Answers the lines of a stream one by one. -/
partial def serve (input output : IO.FS.Stream) (service : Service) : IO Unit := do
  let line ← input.getLine
  if line.isEmpty then return
  let (responses, service) := service.serve (← disk).toHost line
  for response in responses do
    output.putStrLn response.toJson.render
  output.flush
  serve input output service

/-- Prints what a command answers. -/
def finish (result : CommandResult) : IO UInt32 := do
  match result.output with
  | .nothing => pure ()
  | .report report => IO.println report.toJson.pretty
  | .responses responses =>
    for response in responses do
      IO.println response.toJson.render
  for line in result.messages do
    IO.eprintln line
  return result.exitCode.toUInt32

def usage : String := "Usage: recheck [OPTIONS] <check|worker> [OPTIONS]"

/-- Runs the command that the arguments name. -/
def run (args : List String) : IO UInt32 := do
  let environment? ← IO.getEnv configVariable
  match Arguments.parse args with
  | .ok ⟨_, _, .worker⟩ =>
    match Command.service? environment? with
    | .ok service =>
      serve (← IO.getStdin) (← IO.getStdout) service
      return 0
    | .error message => finish (Command.failed message .nothing)
  | .ok _ => finish (Command.run args (← disk) environment? "")
  | .error .help =>
    IO.println usage
    finish (Command.run args default environment? "")
  | .error .misuse =>
    IO.eprintln usage
    finish (Command.run args default environment? "")

end Recheck.Main

def main (args : List String) : IO UInt32 := Recheck.Main.run args
