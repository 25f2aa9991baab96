import Rollup.Event
import Rollup.Index.Document
import Rollup.Text.Lossy

/-!
# Events of an index
-/

namespace Rollup.Event

/-- An event that an index reports. -/
def ofIndex (level : Level) (message : String) (fields : List (String × FieldValue)) : Event :=
  ⟨level, "autoreduce_core::index", message, fields⟩

def indexCreated (index collection : String) : Event :=
  ofIndex .info "created index" [("index", .plain index), ("collection", .quoted collection)]

def indexOpened (index : String) (lastEtag : Etag) (buckets : Nat) : Event :=
  ofIndex .info "opened index"
    [("index", .quoted index), ("last_etag", .number lastEtag.toNat), ("buckets", .number buckets)]

/-- The fields that tell an entry. -/
def entryFields (index : String) (e : Entry) : List (String × FieldValue) :=
  [("index", .quoted index), ("document", .plain (Text.lossy e.document)),
    ("etag", .number e.etag.toNat), ("hash", .plain e.hash.text)]

def documentMapped (index : String) (e : Entry) : Event :=
  ofIndex .trace "mapped document" (entryFields index e)

def entryRetracted (index : String) (e : Entry) : Event :=
  ofIndex .trace "retracted entry" (entryFields index e)

def updateReleased (index : String) (buckets : Nat) : Event :=
  ⟨.trace, "autoreduce_core::context", "releasing indexing context",
    [("index", .plain index), ("buckets", .number buckets)]⟩

/-- The fields of the etags that a batch gave out, if it gave out any. -/
def etagFields (etags : List Etag) : List (String × FieldValue) :=
  (etags.head?.map fun e => ("first_etag", FieldValue.number e.toNat)).toList ++
    (etags.getLast?.map fun e => ("last_etag", FieldValue.number e.toNat)).toList

def batchCommitted (index : String) (items : Nat) (etags : List Etag) (retracted reduced : Nat) :
    Event :=
  ofIndex .debug "batch committed" <|
    [("index", .quoted index), ("items", .number items)] ++ etagFields etags ++
      [("retracted", .number retracted), ("reduced", .number reduced)]

def documentFailed (index : String) (key : DocumentKey) (error : String) : Event :=
  ofIndex .warn "document failed, batch rolled back"
    [("index", .quoted index), ("document", .plain (Text.lossy key)), ("error", .plain error)]

def batchRolledBack (index error : String) : Event :=
  ofIndex .warn "batch rolled back" [("index", .quoted index), ("error", .plain error)]

def commitFailed (index error : String) : Event :=
  ofIndex .warn "batch commit failed" [("index", .quoted index), ("error", .plain error)]

def allReduced (index : String) (buckets : Nat) : Event :=
  ofIndex .debug "reduced all buckets" [("index", .quoted index), ("buckets", .number buckets)]

end Rollup.Event
