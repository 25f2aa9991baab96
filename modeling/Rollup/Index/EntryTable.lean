import Rollup.Index.Document
import Rollup.Index.Error
import Rollup.Storage.Table

/-!
# The map entry table

One row for every mapped document: etag, document key and group hash, found by etag, by document
and by group.
-/

namespace Rollup.EntryTable

def documentIndex : String := "DocumentKeys"

def hashIndex : String := "ReduceKeyHashes"

/-- The layout of the table of an index. -/
def schema (index : String) : TableSchema where
  name := entryTable index
  primaryKey := 0
  indexes := [⟨documentIndex, 1, .variable⟩, ⟨hashIndex, 2, .fixed 8⟩]

/-- The row of an entry. -/
def toRow (e : Entry) : Row := ⟨[e.etag.encode, e.document, e.hash.encode]⟩

/-- The entry that a row stores. -/
def ofRow (row : Row) : Except IndexError Entry := do
  match row.columns with
  | [etag, document, hash] =>
    let etag ← (Etag.decode etag).mapError .ofKeyWidth
    let hash ← (GroupHash.decode hash).mapError .ofKeyWidth
    return ⟨etag, document, hash⟩
  | columns => throw (.format (.entryColumns columns.length))

/-! ### Writing -/

def create (index : String) : Transaction.Step Unit := (schema index).create

def insert (index : String) (e : Entry) : Transaction.Step Unit := (schema index).insert (toRow e)

def delete (index : String) (etag : Etag) : Transaction.Step Bool :=
  (schema index).delete etag.encode

/-! ### Reading -/

/-- The entries that a secondary index finds, in etag order. -/
def seek (index : String) (s : Snapshot) (indexName : String) (value : Bytes) :
    Except IndexError (List Entry) := do
  let rows ← ((schema index).seek s indexName value).mapError .storage
  rows.mapM ofRow

/-- The entries of a document. -/
def ofDocument (index : String) (s : Snapshot) (key : DocumentKey) :
    Except IndexError (List Entry) :=
  seek index s documentIndex key

/-- The entries of a group. -/
def ofHash (index : String) (s : Snapshot) (hash : GroupHash) : Except IndexError (List Entry) :=
  seek index s hashIndex hash.encode

/-- The greatest etag in the table. -/
def lastEtag? (index : String) (s : Snapshot) : Except IndexError (Option Etag) := do
  match ← ((schema index).lastKey s).mapError .storage with
  | none => return none
  | some key => return some (← (Etag.decode key).mapError .ofKeyWidth)

/-- The hashes of the groups that have entries, in order. -/
def hashes (index : String) (s : Snapshot) : Except IndexError (List GroupHash) := do
  let values ← ((schema index).scan s hashIndex).mapError .storage
  values.mapM fun value => (GroupHash.decode value).mapError .ofKeyWidth

/-- The number of entries. -/
def size (index : String) (s : Snapshot) : Nat := (schema index).size s

end Rollup.EntryTable
