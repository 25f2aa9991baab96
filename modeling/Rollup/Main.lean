import Rollup.Command.Program

/-!
# The program on a real directory

Reads the directory and the input file, lets `Run` decide what becomes of them, and writes the log
back and the output out.  While a run works, it holds the lock of its directory.
-/

namespace Rollup

/-- What has been opened.  What cannot be read is a directory. -/
def openedTarget (opened : IO.FS.Handle) : IO PathTarget := do
  try return .file (← opened.readBinToEnd).toList
  catch _ => return .directory

/-- What a path leads to. -/
def readTarget (path : String) : IO PathTarget := do
  try openedTarget (← IO.FS.Handle.mk path .read)
  catch _ => return .nothing

/-- Makes a directory, and answers whether it is there. -/
def makeDirectory (path : String) : IO Bool := do
  try
    IO.FS.createDirAll path
    return true
  catch _ => return false

/-- Writes a log back.  One that only grew is added to, so that a crash can tear its end only. -/
def writeLog (path : String) (before after : Bytes) : IO Unit := do
  if before.isPrefixOf after then
    let file ← IO.FS.Handle.mk path .append
    file.write (after.drop before.length).toByteArray
    file.flush
  else IO.FS.writeBinFile path after.toByteArray

/-- What the path leads to from which a command reads. -/
def readInput : Command → IO (String → PathTarget)
  | .map _ input _ => do
    let target ← readTarget input
    return fun path => if path = input then target else .directory
  | _ => return fun _ => .directory

/-- Runs a command in the directory of that path, which is made if it does not exist. -/
def runIn (path : String) (inv : Invocation) : IO Run := do
  -- No directory can be made where a file stands.
  unless ← makeDirectory path do return (Run.ofInvocation inv .fresh fun _ => .file []).1
  let lock ← IO.FS.Handle.mk (path ++ "/LOCK") .append
  let free ← lock.tryLock
  let log := path ++ "/commit.log"
  if free then let _ ← IO.FS.Handle.mk log .append
  let before := match ← readTarget log with | .file content => content | _ => []
  let (run, directory) := Run.ofInvocation inv ⟨before, !free⟩ (← readInput inv.command)
  if directory.log ≠ before then writeLog log before directory.log
  return run

/-- Runs a command line; what needs no directory touches none. -/
def runWords (words : List String) : IO Run := do
  match Invocation.ofWords words with
  | .error stop => return .ofStop stop
  | .ok inv =>
    match inv.path, inv.command with
    | none, _ | _, .version => return (Run.ofInvocation inv .fresh fun _ => .nothing).1
    | some path, _ => runIn path inv

end Rollup

def main (words : List String) : IO UInt32 := do
  let run ← Rollup.runWords words
  let output ← IO.getStdout
  run.log.forM fun event => output.putStrLn event.line
  output.putStr run.printed
  output.flush
  if let some e := run.failure then (← IO.getStderr).putStrLn s!"Error: {e.message}"
  return run.code.toUInt32
