import Rollup.Index.Basic
import Rollup.Index.Results

/-!
# Batches

A batch applies changes in order inside one transaction, reduces the groups that it touched, and
commits; then it sends the results on.  A change that fails stops the batch, and everything is as
it was but for the count of failed batches.  Etags given out by a batch whose commit fails are not
given out again.
-/

namespace Rollup

/-- What a committed batch did. -/
structure BatchResult where
  mapped : Nat := 0
  deleted : Nat := 0
  retracted : Nat := 0
  reduced : Nat := 0
  /-- The etags given out, in the order of the changes. -/
  etags : List Etag := []
deriving DecidableEq, Repr, Inhabited

/-- What two batches did, one behind the other. -/
instance : Append BatchResult where
  append a b :=
    { mapped := a.mapped + b.mapped
      deleted := a.deleted + b.deleted
      retracted := a.retracted + b.retracted
      reduced := a.reduced + b.reduced
      etags := a.etags ++ b.etags }

/-- A batch that is ready to be committed. -/
structure Prepared where
  result : BatchResult
  /-- The touched groups with their outputs, in hash order. -/
  outputs : List (GroupHash × Option Value)

/-- An open index at work: the store it lies in, and the state of the receiver of its results. -/
structure Live (β σ : Type) extends Host β where
  index : Index
  sink : σ

namespace Index

/-! ### Inside the transaction -/

/-- Applies one change.  A put takes the entries of its document back first. -/
def applyChange (ix : Index) : Change → Update.Step BatchResult
  | .put document => do
    let retracted ← ix.removeDocument document.key
    let etag ← ix.mapDocument document
    return { mapped := 1, retracted, etags := [etag] }
  | .delete key => do
    let retracted ← ix.removeDocument key
    return { deleted := 1, retracted }

/-- Names the document at which a batch failed. -/
def nameDocument (ix : Index) (change : Change) (cause : IndexError) : IndexError :=
  .document ix.name change.key cause

/-- Applies changes in order, up to the first that fails. -/
def applyChanges (ix : Index) : List Change → Update.Step BatchResult
  | [] => return {}
  | change :: changes => do
    let first ← ExceptT.adapt (ix.nameDocument change) (ix.applyChange change)
    return first ++ (← ix.applyChanges changes)

/-- The outputs of the touched groups, if batches reduce. -/
def outputs (ix : Index) : Update.Step (List (GroupHash × Option Value)) := do
  if ix.config.reduceAfterBatch then
    let hashes := (← get).touched.keys
    Update.view fun s => hashes.mapM fun hash => return (hash, ← ix.reduceIn s hash)
  else return []

/-- All that a batch does before its commit. -/
def prepare (ix : Index) (changes : List Change) : Update.Step Prepared := do
  let result ← ix.applyChanges changes
  let outputs ← ix.outputs
  return ⟨{ result with reduced := outputs.length }, outputs⟩

/-! ### Around it -/

/-- The deliveries of a committed batch: first every result to be taken back, then the outputs in
hash order; an empty group whose result was not taken back yet loses it now. -/
def deliveries (retracted : OrderedSet GroupHash) (outputs : List (GroupHash × Option Value)) :
    List Delivery :=
  retracted.keys.map .retract ++ outputs.filterMap fun
    | (hash, some output) => some (.write hash output)
    | (hash, none) => if retracted.contains hash then none else some (.retract hash)

/-- The counters after groups were reduced. -/
def countReduced (groups : Nat) (counters : Counters) : Counters :=
  { counters with reduced := counters.reduced + .ofNat groups }

/-- The counters after a committed batch. -/
def countBatch (result : BatchResult) (counters : Counters) : Counters :=
  countReduced result.reduced
    { counters with
      mapped := counters.mapped + .ofNat result.mapped
      deleted := counters.deleted + .ofNat result.deleted
      retracted := counters.retracted + .ofNat result.retracted
      committed := counters.committed + 1 }

/-- The counters after a failed batch. -/
def countFailure (counters : Counters) : Counters :=
  { counters with failed := counters.failed + 1 }

/-- The event of a batch that failed before its commit. -/
def failureEvent (index : String) : IndexError → Event
  | .document _ key cause => .documentFailed index key cause.message
  | e => .batchRolledBack index e.message

end Index

namespace Live

variable {β σ : Type}

/-- A step of an index at work. -/
abbrev Step (β σ α : Type) : Type := Action (Live β σ) IndexError α

def ofHost (host : Host β) (index : Index) (sink : σ) : Live β σ := ⟨host, index, sink⟩

/-- The committed snapshot. -/
def committed (live : Live β σ) : Snapshot := live.env.committed

def report (event : Event) : Step β σ Unit :=
  modify fun live => { live with toHost := live.toHost.report event }

/-- Reports events in order. -/
def reportAll (events : Array Event) : Step β σ Unit :=
  modify fun live => { live with events := live.events ++ events }

/-- Moves the counters. -/
def count (f : Counters → Counters) : Step β σ Unit :=
  modify fun live => { live with index := { live.index with counters := f live.index.counters } }

/-- Sends deliveries on, up to the first that is refused. -/
def deliverAll (sink : Sink σ) : List Delivery → Step β σ Unit
  | [] => pure ()
  | d :: ds => do
    (sink.deliver d).within (·.sink) (fun sink live => { live with sink }) id
    deliverAll sink ds

variable [Backend β]

/-- Commits the transaction of an update, as the index is configured to. -/
def commit (txn : Transaction) : Step β σ Unit := do
  let sync := (← get).index.config.syncOnCommit
  (Host.commit txn sync).within (·.toHost) (fun host live => { live with toHost := host }) .storage

/-- The work of a batch inside its transaction: what is ready to be committed, and the update. -/
def stage (live : Live β σ) (changes : List Change) : Except IndexError Prepared × Update :=
  (live.index.prepare changes).exec
    (Update.on live.index.name live.env.begin live.index.lastEtag)

/-- Runs a batch up to its commit; answers what it did, and what is to be delivered. -/
def commitBatch (changes : List Change) : Step β σ (BatchResult × List Delivery) := do
  let live ← get
  let ix := live.index
  let limit := ix.config.maxBatchSize
  if limit < changes.length then throw (.refused (.batchTooLarge changes.length limit))
  let (answer, update) := live.stage changes
  reportAll (update.events.push update.released)
  match answer with
  | .error e =>
    count Index.countFailure
    report (Index.failureEvent ix.name e)
    throw e
  | .ok prepared =>
    modify fun live => { live with index := { live.index with lastEtag := update.lastEtag } }
    try commit update.txn
    catch e =>
      count Index.countFailure
      report (.commitFailed ix.name e.message)
      throw e
    let result := prepared.result
    count (Index.countBatch result)
    report (.batchCommitted ix.name changes.length result.etags update.retracted.size
      prepared.outputs.length)
    return (result, Index.deliveries update.retracted prepared.outputs)

/-- Runs a batch of changes, and sends its results on. -/
def runBatch (sink : Sink σ) (changes : List Change) : Step β σ BatchResult := do
  let (result, deliveries) ← commitBatch changes
  deliverAll sink deliveries
  return result

/-- Reduces groups and writes their outputs, up to the first that fails; answers how many. -/
def reduceGroups (sink : Sink σ) : List GroupHash → Step β σ Nat
  | [] => return 0
  | hash :: hashes => do
    let live ← get
    match ← Action.lift (live.index.reduceIn live.committed hash) with
    | none => reduceGroups sink hashes
    | some output =>
      deliverAll sink [.write hash output]
      return (← reduceGroups sink hashes) + 1

/-- Reduces every group that is not empty and writes its output. -/
def reduceAll (sink : Sink σ) : Step β σ Nat := do
  let live ← get
  let hashes ← Action.lift (live.index.hashesIn live.committed)
  let written ← reduceGroups sink hashes
  count (Index.countReduced written)
  report (.allReduced live.index.name written)
  return written

end Live

end Rollup
