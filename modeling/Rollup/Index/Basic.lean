import Rollup.Index.Config
import Rollup.Index.Reduction
import Rollup.Index.Update
import Rollup.Storage.Event
import Rollup.Text.Utf8

/-!
# Indexes

An index groups the documents of a store and keeps, for every group, what its documents contribute.
It lives in trees of its own; an open index holds its definition, and the last etag given out.
Mapping and removing a document are steps of an update, so a whole batch is committed or nothing.
-/

namespace Rollup

structure Index where
  definition : Definition
  config : Config
  /-- The last etag given out. -/
  lastEtag : Etag
  counters : Counters

namespace Index

def name (ix : Index) : String := ix.definition.name

/-- The statistics. -/
def stats (ix : Index) : Stats := ix.counters.snapshot

/-- The key of the stored definition. -/
def definitionKey : Bytes := Utf8.encode "definition"

/-- The key of the stored last etag. -/
def lastEtagKey : Bytes := Utf8.encode "last_etag"

/-! ### Creating and opening -/

/-- Writes the trees of a new index. -/
def layOut (d : Definition) : Update.Step Unit := do
  let tree := metaTree d.name
  if (← get).snapshot.hasTree tree then throw (.alreadyExists d.name)
  let _ ← Update.inTxn (Transaction.createTree tree)
  let stored ← Action.lift (d.toValue.encode.mapError .encoding)
  Update.inTxn (Transaction.put tree definitionKey stored)
  Update.inTxn (Transaction.put tree lastEtagKey Etag.zero.encode)
  let _ ← Update.inTxn (Transaction.createTree (groupKeyTree d.name))
  Update.inTxn (EntryTable.create d.name)

/-- The number of buckets of an index, emptied ones counted. -/
def bucketCountIn (name : String) (s : Snapshot) : Nat :=
  (s.treeNamesFrom (bucketTreeStart name)).length

/-- The stored definition of an index. -/
def storedDefinition (name : String) (s : Snapshot) : Except IndexError Definition := do
  unless s.hasTree (metaTree name) do throw (.notFound name)
  match ← (s.lookup (metaTree name) definitionKey).mapError .storage with
  | none => throw (.format (.noDefinition name))
  | some stored =>
    let d ← Definition.ofValue (← (Value.decode stored).mapError .encoding)
    unless d.name = name do throw (.format (.otherDefinition name d.name))
    return d

/-- The last etag that an index has to know of: the stored one, or a greater one in its table. -/
def storedLastEtag (name : String) (s : Snapshot) : Except IndexError Etag := do
  let persisted ←
    match ← (s.lookup (metaTree name) lastEtagKey).mapError .storage with
    | none => pure Etag.zero
    | some stored => (Etag.decode stored).mapError .ofKeyWidth
  match ← EntryTable.lastEtag? name s with
  | none => return persisted
  | some etag => return etag.max persisted

/-- The index of that name in a snapshot. -/
def ofSnapshot (name : String) (config : Config) (s : Snapshot) : Except IndexError Index := do
  let d ← storedDefinition name s
  let lastEtag ← storedLastEtag name s
  return ⟨d, config, lastEtag, {}⟩

section

variable {β : Type} [Backend β]

/-- Creates an empty index, and commits it. -/
def create (d : Definition) (config : Config) : Action (Host β) IndexError Index := do
  Action.lift d.validate
  let start := Update.on d.name (← get).env.begin .zero
  let (answer, update) := (layOut d).exec start
  Action.lift answer
  ExceptT.adapt .storage (Host.commit update.txn config.syncOnCommit)
  modify (·.report (.indexCreated d.name d.collection))
  return ⟨d, config, .zero, {}⟩

/-- Opens an index that exists. -/
def load (name : String) (config : Config) : Action (Host β) IndexError Index := do
  let s := (← get).env.committed
  let ix ← Action.lift (ofSnapshot name config s)
  modify (·.report (.indexOpened name ix.lastEtag (bucketCountIn name s)))
  return ix

end

/-! ### Grouping -/

/-- The group key of a document, its bytes and their hash. -/
def groupOf (ix : Index) (data : Value) : Except IndexError (Value × Bytes × GroupHash) := do
  let key := ix.definition.groupKey data
  let stored ← key.encode.mapError .encoding
  return (key, stored, ix.config.hash stored)

/-! ### Steps of an update -/

/-- Records the key of a group, unless it is recorded already. -/
def recordGroupKey (ix : Index) (hash : GroupHash) (key : Bytes) : Update.Step Unit := do
  let tree := groupKeyTree ix.name
  let recorded ← Update.view fun s => (s.lookup tree hash.encode).mapError .storage
  if recorded.isNone then Update.inTxn (Transaction.put tree hash.encode key)

/-- Maps a document: puts what it contributes into the bucket of its group, and enters that into
the table.  Earlier entries of the document stay. -/
def mapDocument (ix : Index) (document : Document) : Update.Step Etag := do
  let (_, key, hash) ← Action.lift (ix.groupOf document.data)
  let blob ← Action.lift ((ix.definition.mapped document.data).encode.mapError .encoding)
  let etag ← Update.nextEtag
  Update.putMapped hash etag blob
  Update.inTxn (Transaction.put (metaTree ix.name) lastEtagKey etag.encode)
  ix.recordGroupKey hash key
  let entry : Entry := ⟨etag, document.key, hash⟩
  Update.inTxn (EntryTable.insert ix.name entry)
  Update.report (.documentMapped ix.name entry)
  return etag

/-- Takes back one entry found under a document; a group left empty loses its recorded key. -/
def removeEntry (ix : Index) (document : DocumentKey) (e : Entry) : Update.Step Unit := do
  let _ ← Update.deleteMapped e.hash e.etag
  Update.retract e.hash
  if ← Update.bucketIsEmpty e.hash then
    let _ ← Update.inTxn (Transaction.delete (groupKeyTree ix.name) e.hash.encode)
  let _ ← Update.inTxn (EntryTable.delete ix.name e.etag)
  Update.report (.entryRetracted ix.name { e with document })

/-- Takes all entries of a document back, and answers how many there were. -/
def removeDocument (ix : Index) (key : DocumentKey) : Update.Step Nat := do
  let entries ← Update.view (EntryTable.ofDocument ix.name · key)
  entries.forM (ix.removeEntry key)
  return entries.length

/-! ### Reading -/

/-- The recorded key of a group. -/
def groupKeyIn (ix : Index) (s : Snapshot) (hash : GroupHash) :
    Except IndexError (Option Value) := do
  match ← (s.lookup (groupKeyTree ix.name) hash.encode).mapError .storage with
  | none => return none
  | some stored => return some (← (Value.decode stored).mapError .encoding)

/-- The output of a group. -/
def reduceIn (ix : Index) (s : Snapshot) (hash : GroupHash) : Except IndexError (Option Value) := do
  let blobs ← (Bucket.mk ix.name hash).entries s
  let key ← ix.groupKeyIn s hash
  Reduction.reduce ix.definition key (blobs.map (·.2))

/-- The entries of a document. -/
def entriesIn (ix : Index) (s : Snapshot) (key : DocumentKey) : Except IndexError (List Entry) :=
  EntryTable.ofDocument ix.name s key

/-- The contributions to a group, in etag order. -/
def bucketIn (ix : Index) (s : Snapshot) (hash : GroupHash) :
    Except IndexError (List (Etag × Value)) :=
  (Bucket.mk ix.name hash).entries s

/-- The hashes of the groups that have entries. -/
def hashesIn (ix : Index) (s : Snapshot) : Except IndexError (List GroupHash) :=
  EntryTable.hashes ix.name s

/-- The number of entries. -/
def entryCountIn (ix : Index) (s : Snapshot) : Nat := EntryTable.size ix.name s

end Index

end Rollup
