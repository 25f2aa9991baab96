import Rollup.Storage.Event

/-!
# Directories

A store in a directory: its log, and a lock that one process at a time can have.  What a path leads
to need not be a directory.
-/

namespace Rollup

/-- What a path leads to. -/
inductive PathTarget where
  | nothing
  | directory
  | file (content : Bytes)
deriving DecidableEq, Repr

/-- A directory that holds a store; `held` says whether somebody has it open. -/
structure Directory where
  log : Bytes
  held : Bool
deriving DecidableEq, Repr

namespace Directory

/-- A directory that has no log yet. -/
def fresh : Directory := ⟨[], false⟩

/-- Opens the store in a directory of that path. -/
def openAt (path : String) (dir : Directory) : Opening LogFile :=
  if dir.held then ⟨.error .locked, .ofContent dir.log, none⟩
  else
    let opening := Environment.openLog (LogFile.ofContent dir.log)
    { opening with outcome := opening.outcome.map fun env => { env with path := some path } }

end Directory

end Rollup
