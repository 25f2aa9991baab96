import Rollup.Storage.Backend
import Rollup.Storage.Scan
import Rollup.Storage.Transaction
import Rollup.Text.Quoted

/-!
# Environments

A store that is open: its log, and the snapshot that the records of the log build up.  There is one
writer at a time.  A commit appends one record and then publishes the transaction's snapshot;
opening a log replays its records and cuts a torn one off its end.
-/

namespace Rollup

/-- The log of an open store. -/
structure CommitLog (β : Type) where
  backend : β
  records : Nat
deriving Inhabited

/-- A store that is open; `path` is the directory it lies in, if it lies in one. -/
structure Environment (β : Type) where
  log : CommitLog β
  committed : Snapshot
  path : Option String
deriving Inhabited

/-- A torn end of a log: how many bytes are kept, and how many there were. -/
structure TornTail where
  kept : Nat
  size : Nat
deriving DecidableEq, Repr

/-- What opening a log came to, the backend as it was left, and the torn end that was found. -/
structure Opening (β : Type) where
  outcome : Except StorageError (Environment β)
  backend : β
  torn : Option TornTail

variable {β : Type}

namespace CommitLog

variable [Backend β]

/-- The whole content of a log. -/
def content : Action β StorageError Bytes := do Backend.read 0 (← Backend.size)

/-- Appends the record of a commit.  A failure of `flush` or `sync` leaves the record in place. -/
def append (ops : List Operation) (sync : Bool) : Action (CommitLog β) StorageError Unit := do
  let record ← Action.lift ((Record.encode ops).mapError .corrupted)
  let write : Action β StorageError Unit := do
    let _ ← Backend.append record
    Backend.flush
    if sync then Backend.sync
  write.within (·.backend) (fun backend log => { log with backend }) id
  modify fun log => { log with records := log.records + 1 }

end CommitLog

namespace Environment

/-- An empty store on a fresh backend. -/
def fresh (backend : β) : Environment β := ⟨⟨backend, 0⟩, .empty, none⟩

section

variable [Backend β]

/-- Replays the records of a log whose torn end has been dealt with. -/
def replay (backend : β) (records : List (List Operation)) :
    Except StorageError (Environment β) := do
  let committed ← Operation.applyAll .empty records.flatten
  return ⟨⟨backend, records.length⟩, committed, none⟩

/-- Opens the store whose log a backend holds. -/
def openLog (backend : β) : Opening β :=
  let load : Action β StorageError (Nat × Scan) := do
    let log ← CommitLog.content
    let scan ← Action.lift (Scan.ofLog 0 log)
    return (log.length, scan)
  match load.exec backend with
  | (.error e, backend) => ⟨.error e, backend, none⟩
  | (.ok (size, scan), backend) =>
    if scan.validLength < size then
      let torn := some ⟨scan.validLength, size⟩
      match (Backend.truncate scan.validLength).exec backend with
      | (.error e, backend) => ⟨.error e, backend, torn⟩
      | (.ok (), backend) => ⟨replay backend scan.records, backend, torn⟩
    else ⟨replay backend scan.records, backend, none⟩

end

/-- A transaction on the committed snapshot. -/
def begin (env : Environment β) : Transaction := .on env.committed

/-- The number of records in the log. -/
def commits (env : Environment β) : Nat := env.log.records

/-- A line about a store: where it lies, and how many trees it has. -/
def summary (env : Environment β) : String :=
  let path := env.path.elim "None" fun path => s!"Some({Text.quoted path})"
  s!"Environment \x7b path: {path}, trees: {env.committed.treeCount}, .. \x7d"

/-- Commits a transaction.  One that did nothing leaves no record; one that fails is not
published. -/
def commit [Backend β] (txn : Transaction) (sync : Bool) :
    Action (Environment β) StorageError Unit := do
  unless txn.ops.isEmpty do
    (CommitLog.append txn.ops.toList sync).within (·.log) (fun log env => { env with log }) id
    modify fun env => { env with committed := txn.working }

end Environment

end Rollup
