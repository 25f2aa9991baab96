import Rollup.Audit
import Rollup.Main
import Rollup.Proofs.Action
import Rollup.Proofs.Bytes
import Rollup.Proofs.OrderedMap
import Rollup.Proofs.Storage.Snapshot
import Rollup.Proofs.Except
import Rollup.Proofs.Storage.Transaction
import Rollup.Proofs.Reader
import Rollup.Proofs.Storage.Record
import Rollup.Proofs.Storage.Backend
import Rollup.Proofs.Storage.Environment
import Rollup.Proofs.Storage.History
import Rollup.Proofs.Storage.Recovery
import Rollup.Proofs.Storage.Row
import Rollup.Proofs.Storage.Schema
import Rollup.Proofs.Storage.Table
import Rollup.Proofs.Index.Keys
import Rollup.Proofs.Index.EntryTable
import Rollup.Proofs.Index.Contents
import Rollup.Proofs.Index.Update
import Rollup.Proofs.Index.Changes
import Rollup.Proofs.Index.Batch
import Rollup.Proofs.Index.Creation
import Rollup.Proofs.Index.Definition
import Rollup.Proofs.Index.Ledger
import Rollup.Proofs.Index.Carrying
import Rollup.Proofs.Index.Rebuild
import Rollup.Proofs.Value.Writing
import Rollup.Proofs.Value.Reading
import Rollup.Proofs.FieldPath
import Rollup.Proofs.Index.Outputs
import Rollup.Proofs.Index.Reopening
import Rollup.Proofs.Index.Results
import Rollup.Proofs.Index.Failures
import Rollup.Proofs.Index.Counter
import Rollup.Proofs.Index.Calls
import Rollup.Proofs.Index.Driving
import Rollup.Proofs.Index.Lockstep
import Rollup.Proofs.Index.Alike
import Rollup.Proofs.Index.Invisible
import Rollup.Proofs.Index.Stamp
import Rollup.Proofs.Index.Etags
import Rollup.Proofs.Index.Handles
import Rollup.Proofs.Value.Stream
import Rollup.Proofs.Index.Restarts
import Rollup.Proofs.Storage.Blind
import Rollup.Proofs.Index.Reduction
import Rollup.Proofs.Index.Deletions
import Rollup.Proofs.Index.Untouched
import Rollup.Proofs.Index.Cutting
import Rollup.Proofs.Command.Boundaries
import Rollup.Proofs.Value.Acceptance
import Rollup.Proofs.Value.Sorting
import Rollup.Proofs.Storage.FiniteMap
import Rollup.Proofs.Storage.Seeking
import Rollup.Proofs.Index.Readable
import Rollup.Proofs.Storage.Agreement
import Rollup.Proofs.Index.Names
import Rollup.Proofs.Index.Desk
import Rollup.Proofs.Index.Independence
import Rollup.Proofs.FieldPath.Levels
import Rollup.Proofs.Value.Rearranged
import Rollup.Proofs.FieldPath.Rearranged
import Rollup.Proofs.Index.Grouping
import Rollup.Proofs.Checksum
import Rollup.Proofs.Storage.Damage
import Rollup.Proofs.Value.Delimiting
import Rollup.Proofs.FieldPath.Grammar
import Rollup.Proofs.Index.Sums
import Rollup.Proofs.Index.Undoing
import Rollup.Proofs.Index.Reloading
import Rollup.Proofs.Index.Statistics
import Rollup.Proofs.Json.Document
import Rollup.Proofs.Storage.Appends
