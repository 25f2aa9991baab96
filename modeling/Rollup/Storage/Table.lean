import Rollup.Storage.Row
import Rollup.Storage.Transaction

/-!
# Tables

A table is a few trees: one from primary key to stored row, and one for each secondary index, from
the indexed value followed by the primary key to the primary key.  A value of any length stands
behind its own length, highest byte first, so that the entries of one value lie together and no
value begins another; a value of fixed size stands as it is.
-/

namespace Rollup

/-- How long the values of an index are. -/
inductive IndexKind where
  | variable
  | fixed (size : Nat)
deriving DecidableEq, Repr

/-- A secondary index over one column. -/
structure IndexSchema where
  name : String
  column : Nat
  kind : IndexKind
deriving DecidableEq, Repr

namespace IndexSchema

/-- What the entries of a value begin with. -/
def lead (index : IndexSchema) (value : Bytes) : Except StorageError Bytes :=
  match index.kind with
  | .fixed _ => .ok value
  | .variable =>
    let length := value.length
    if length < Bytes.capacity 4 then .ok (Bytes.bigEndian 4 length ++ value)
    else .error (.corrupted .indexValueTooLong)

/-- The entry of a row. -/
def entry (index : IndexSchema) (value key : Bytes) : Except StorageError Bytes :=
  return (← index.lead value) ++ key

/-- The value that an entry carries, if the entry is long enough. -/
def value? (index : IndexSchema) (entry : Bytes) : Option Bytes :=
  match index.kind with
  | .fixed size => (entry.cut? size).map (·.1)
  | .variable => do
    let (length, rest) ← entry.cut? 4
    let (value, _) ← Bytes.cut? (Bytes.ofBigEndian length) rest
    return value

end IndexSchema

/-- The layout of a table: its name, the column of its primary key, and its indexes. -/
structure TableSchema where
  name : String
  primaryKey : Nat
  indexes : List IndexSchema
deriving DecidableEq, Repr

namespace TableSchema

/-- The tree of an index. -/
def indexTree (table : TableSchema) (index : IndexSchema) : String :=
  table.name ++ "/" ++ index.name

/-- The index of that name. -/
def index (table : TableSchema) (name : String) : Except StorageError IndexSchema :=
  match table.indexes.find? fun index => index.name == name with
  | some index => .ok index
  | none => .error (.noIndex table.name name)

/-! ### Writing -/

def createIndex (table : TableSchema) (index : IndexSchema) : Transaction.Step Unit := do
  let _ ← Transaction.createTree (table.indexTree index)

/-- Adds those trees of the table that do not exist. -/
def create (table : TableSchema) : Transaction.Step Unit := do
  let _ ← Transaction.createTree table.name
  table.indexes.forM table.createIndex

/-- The value of a row for an index, which has to be there and have the right size. -/
def indexedValue (table : TableSchema) (row : Row) (index : IndexSchema) :
    Except StorageError Bytes :=
  match row.columns[index.column]?, index.kind with
  | none, _ => .error (.invalidRow table.name (.noColumn index.name))
  | some value, .variable => .ok value
  | some value, .fixed size =>
    if value.length = size then .ok value
    else .error (.invalidRow table.name (.columnSize index.name size value.length))

/-- The primary key of a row. -/
def keyOf (table : TableSchema) (row : Row) : Except StorageError Bytes :=
  match row.columns[table.primaryKey]? with
  | some key => .ok key
  | none => .error (.invalidRow table.name .noPrimaryKey)

/-- Enters a primary key into an index, under the indexed value of its row. -/
def insertEntry (table : TableSchema) (key : Bytes) (index : IndexSchema) (value : Bytes) :
    Transaction.Step Unit := do
  let entry ← Action.lift (index.entry value key)
  Transaction.put (table.indexTree index) entry key

/-- Inserts a row and its index entries. -/
def insert (table : TableSchema) (row : Row) : Transaction.Step Unit := do
  let key ← Action.lift (table.keyOf row)
  let values ← Action.lift (table.indexes.mapM (table.indexedValue row))
  let present ← Transaction.view (·.lookup table.name key)
  if present.isSome then throw (.duplicateKey table.name)
  let stored ← Action.lift (row.encode.mapError .corrupted)
  Transaction.put table.name key stored
  (table.indexes.zip values).forM fun e => table.insertEntry key e.1 e.2

/-! ### Reading -/

def isCreated (table : TableSchema) (s : Snapshot) : Bool := s.hasTree table.name

/-- The row of a primary key. -/
def lookup (table : TableSchema) (s : Snapshot) (key : Bytes) :
    Except StorageError (Option Row) := do
  match ← s.lookup table.name key with
  | none => return none
  | some stored => return some (← (Row.decode stored).mapError .corrupted)

/-- The row to which an index entry points. -/
def target (table : TableSchema) (s : Snapshot) (index : IndexSchema) (key : Bytes) :
    Except StorageError Row := do
  match ← table.lookup s key with
  | some row => return row
  | none => throw (.corrupted (.danglingEntry index.name table.name))

/-- The rows whose indexed column has a value, in primary key order. -/
def seek (table : TableSchema) (s : Snapshot) (indexName : String) (value : Bytes) :
    Except StorageError (List Row) := do
  let index ← table.index indexName
  let lead ← index.lead value
  let entries ← s.entriesFrom (table.indexTree index) lead
  (entries.takeWhile fun e => lead.isPrefixOf e.1).mapM fun e => table.target s index e.2

/-- The distinct values of an index, in byte order. -/
def scan (table : TableSchema) (s : Snapshot) (indexName : String) :
    Except StorageError (List Bytes) := do
  let index ← table.index indexName
  let entries ← s.entriesFrom (table.indexTree index) []
  let values : OrderedSet Bytes := .ofList ((entries.filterMap (index.value? ·.1)).map (·, ()))
  return values.keys

/-- The greatest primary key. -/
def lastKey (table : TableSchema) (s : Snapshot) : Except StorageError (Option Bytes) :=
  return (← s.last? table.name).map (·.1)

/-- The number of rows. -/
def size (table : TableSchema) (s : Snapshot) : Nat := s.treeSize table.name

/-! ### Deleting -/

/-- Takes the entry of a row out of an index. -/
def deleteEntry (table : TableSchema) (key : Bytes) (row : Row) (index : IndexSchema) :
    Transaction.Step Unit := do
  let entry ← Action.lift (index.entry (row.column index.column) key)
  let _ ← Transaction.delete (table.indexTree index) entry

/-- Deletes a row and its index entries, and answers whether there was one. -/
def delete (table : TableSchema) (key : Bytes) : Transaction.Step Bool := do
  match ← Transaction.view (table.lookup · key) with
  | none => return false
  | some row =>
    table.indexes.forM (table.deleteEntry key row)
    Transaction.delete table.name key

end TableSchema

end Rollup
