import Rollup.Index.Error
import Rollup.Json.Document

/-!
# Failures of commands
-/

namespace Rollup

/-- Why a line of input is no change. -/
inductive LineError where
  /-- It is no JSON, or does not have the form of a change. -/
  | form
  | number (e : NumberError)
deriving DecidableEq, Repr

inductive CommandError where
  | storage (e : StorageError)
  | index (e : IndexError)
  | line (number : Nat) (cause : LineError)
  /-- There is no file of that name. -/
  | noFile
  /-- The input is a directory. -/
  | isDirectory
  /-- A line of the input is not UTF-8. -/
  | unreadable
  /-- The command needs the path of an environment. -/
  | noPath (command : String)
deriving DecidableEq, Repr

def LineError.message : LineError → String
  | .form => "not a change in JSON"
  | .number e => e.message

def CommandError.message : CommandError → String
  | .storage e => e.message
  | .index e => e.message
  | .line number cause => s!"line {number}: {cause.message}"
  | .noFile => "no such file"
  | .isDirectory => "is a directory"
  | .unreadable => "stream did not contain valid UTF-8"
  | .noPath command => s!"Environment path required for {command}"

end Rollup
