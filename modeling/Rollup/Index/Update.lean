import Rollup.Index.Bucket
import Rollup.Index.EntryTable
import Rollup.Index.Event
import Rollup.OrderedMap

/-!
# Updates

An update is the work on one index inside one write transaction: which buckets it has opened, which
groups it has touched, from which it has taken something away, and the last etag given out.
-/

namespace Rollup

structure Update where
  index : String
  txn : Transaction
  /-- The groups whose buckets have been opened. -/
  opened : OrderedSet GroupHash
  /-- The groups whose buckets have been written to. -/
  touched : OrderedSet GroupHash
  /-- The groups whose results have to be taken back. -/
  retracted : OrderedSet GroupHash
  /-- The last etag given out. -/
  lastEtag : Etag
  events : Array Event

namespace Update

/-- A step of an update. -/
abbrev Step (α : Type) : Type := Action Update IndexError α

/-- An update that has done nothing yet. -/
def on (index : String) (txn : Transaction) (lastEtag : Etag) : Update :=
  ⟨index, txn, .empty, .empty, .empty, lastEtag, #[]⟩

/-- What the transaction of an update shows. -/
def snapshot (u : Update) : Snapshot := u.txn.working

/-- The event of letting an update go. -/
def released (u : Update) : Event := .updateReleased u.index u.opened.size

/-- A step of the transaction.  The update is taken apart first, so that nothing else holds the
transaction while it grows. -/
def inTxn {α : Type} (step : Transaction.Step α) : Step α :=
  Action.ofExec fun ⟨index, txn, opened, touched, retracted, lastEtag, events⟩ =>
    let (answer, txn) := step.exec txn
    (answer.mapError .storage, ⟨index, txn, opened, touched, retracted, lastEtag, events⟩)

/-- Reads what the transaction shows. -/
def view {α : Type} (read : Snapshot → Except IndexError α) : Step α := do
  Action.lift (read (← get).snapshot)

def report (event : Event) : Step Unit :=
  modify fun u => { u with events := u.events.push event }

/-! ### Buckets -/

/-- The bucket of a group.  Its tree is added when the update asks for it the first time. -/
def bucket (hash : GroupHash) : Step Bucket := do
  let u ← get
  let b : Bucket := ⟨u.index, hash⟩
  unless u.opened.contains hash do
    inTxn b.create
    modify fun u => { u with opened := u.opened.insert hash () }
  return b

def touch (hash : GroupHash) : Step Unit :=
  modify fun u => { u with touched := u.touched.insert hash () }

/-- Takes the result of a group back. -/
def retract (hash : GroupHash) : Step Unit :=
  modify fun u => { u with retracted := u.retracted.insert hash () }

/-- Puts a contribution into the bucket of a group. -/
def putMapped (hash : GroupHash) (etag : Etag) (blob : Bytes) : Step Unit := do
  let b ← bucket hash
  inTxn (b.put etag blob)
  touch hash

/-- Removes a contribution, and answers whether it was there. -/
def deleteMapped (hash : GroupHash) (etag : Etag) : Step Bool := do
  let b ← bucket hash
  let removed ← inTxn (b.delete etag)
  touch hash
  return removed

/-- Whether the bucket of a group is empty. -/
def bucketIsEmpty (hash : GroupHash) : Step Bool := do
  let b ← bucket hash
  return b.isEmpty (← get).snapshot

/-! ### Etags -/

/-- Gives out the next etag. -/
def nextEtag : Step Etag := do
  match (← get).lastEtag.next? with
  | none => throw .etagsExhausted
  | some etag =>
    modify fun u => { u with lastEtag := etag }
    return etag

end Update

end Rollup
