import Rollup.Event
import Rollup.Storage.Environment

/-!
# Events of the store
-/

namespace Rollup

namespace Event

def tornTail (torn : TornTail) : Event where
  level := .warn
  source := "autoreduce_storage::log"
  message := "commit log ends with a torn record; truncating"
  fields := [("valid_len", .number torn.kept), ("size", .number torn.size)]

def environmentOpened (records trees : Nat) : Event where
  level := .info
  source := "autoreduce_storage::env"
  message := "environment opened"
  fields := [("records", .number records), ("trees", .number trees)]

def transactionCommitted (ops : Nat) (sync : Bool) : Event where
  level := .debug
  source := "autoreduce_storage::env"
  message := "transaction committed"
  fields := [("ops", .number ops), ("sync", .flag sync)]

end Event

variable {β : Type}

/-- What opening a log reports: a torn end even if it could not be cut off. -/
def Opening.events (opening : Opening β) : List Event :=
  let torn := opening.torn.toList.map Event.tornTail
  match opening.outcome with
  | .ok env => torn ++ [.environmentOpened env.commits env.committed.treeCount]
  | .error _ => torn

/-- An open store together with what has been reported about it so far. -/
structure Host (β : Type) where
  env : Environment β
  events : Array Event

namespace Host

def report (event : Event) (host : Host β) : Host β :=
  { host with events := host.events.push event }

/-- Commits a transaction, and reports it if it left a record. -/
def commit [Backend β] (txn : Transaction) (sync : Bool) : Action (Host β) StorageError Unit := do
  (Environment.commit txn sync).within (·.env) (fun env host => { host with env }) id
  unless txn.ops.isEmpty do modify (·.report (.transactionCommitted txn.pending sync))

end Host

end Rollup
