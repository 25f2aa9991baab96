import Rollup.Bytes

/-!
# Failures of the store

Why a call to the store did not do its work.
-/

namespace Rollup

/-- The calls that a backend answers. -/
inductive BackendCall where
  | append
  | flush
  | sync
  | read
  | size
  | truncate
deriving DecidableEq, Repr

/-- Why a backend could not carry out a call. -/
inductive IoFailure where
  /-- The call was told to fail. -/
  | injected (call : BackendCall)
  /-- A write stopped before its end. -/
  | writeStopped
  /-- Cutting would have made the content longer. -/
  | truncateBeyondEnd (wanted size : Nat)
  /-- A file stands where the directory of a store should be. -/
  | notDirectory
deriving DecidableEq, Repr

/-- Stored bytes that do not read as what they should be, or contents too long to be stored. -/
inductive Damage where
  | badMagic (offset : Nat)
  | newerVersion (version offset : Nat)
  | payloadTruncated
  | treeName
  | operation (tag : Nat)
  | fieldTooLong
  | tooManyOperations
  | payloadTooLong
  | indexValueTooLong
  | rowTooLong
  | rowHeader
  | rowColumn
  | danglingEntry (index table : String)
deriving DecidableEq, Repr

/-- What keeps a row out of a table. -/
inductive RowFlaw where
  | noPrimaryKey
  | noColumn (index : String)
  | columnSize (index : String) (expected actual : Nat)
deriving DecidableEq, Repr

inductive StorageError where
  | io (failure : IoFailure)
  | readPastEnd (offset len size : Nat)
  | corrupted (damage : Damage)
  | checksum (offset : Nat) (expected actual : UInt32)
  | locked
  | noTree (tree : String)
  | noIndex (table index : String)
  | invalidRow (table : String) (flaw : RowFlaw)
  | duplicateKey (table : String)
deriving DecidableEq, Repr

def BackendCall.name : BackendCall → String
  | .append => "append"
  | .flush => "flush"
  | .sync => "sync"
  | .read => "read"
  | .size => "size"
  | .truncate => "truncate"

def IoFailure.message : IoFailure → String
  | .injected call => s!"injected {call.name} failure"
  | .writeStopped => "write stopped before its end"
  | .truncateBeyondEnd wanted size =>
    s!"cannot truncate to size {wanted} which is greater than current size {size}"
  | .notDirectory => "not a directory"

def Damage.message : Damage → String
  | .badMagic offset => s!"invalid magic at offset {offset}"
  | .newerVersion version offset => s!"unsupported version {version} at offset {offset}"
  | .payloadTruncated => "log payload truncated"
  | .treeName => "tree name is not UTF-8"
  | .operation tag => s!"unknown log op {tag}"
  | .fieldTooLong => "log field exceeds 4 GiB"
  | .tooManyOperations => "too many log ops"
  | .payloadTooLong => "log record payload too large"
  | .indexValueTooLong => "index value too large"
  | .rowTooLong => "row too large"
  | .rowHeader => "row header truncated"
  | .rowColumn => "row column truncated"
  | .danglingEntry index table => s!"index '{index}' of table '{table}' points at a missing row"

def RowFlaw.message : RowFlaw → String
  | .noPrimaryKey => "missing primary key column"
  | .noColumn index => s!"missing column for index '{index}'"
  | .columnSize index expected actual =>
    s!"index '{index}' expects {expected} bytes, got {actual}"

/-- A checksum in hexadecimal, with its eight digits. -/
def checksumText (n : UInt32) : String := "0x" ++ Bytes.toHex (Bytes.bigEndian 4 n.toNat)

def StorageError.message : StorageError → String
  | .io failure => s!"I/O error: {failure.message}"
  | .readPastEnd offset len size =>
    s!"read beyond end of storage: offset {offset}, len {len}, size {size}"
  | .corrupted damage => s!"storage corrupted: {damage.message}"
  | .checksum offset expected actual =>
    s!"checksum mismatch at offset {offset}: " ++
      s!"expected {checksumText expected}, got {checksumText actual}"
  | .locked => "environment is locked by another process"
  | .noTree tree => s!"tree not found: {tree}"
  | .noIndex table index => s!"table '{table}' has no index '{index}'"
  | .invalidRow table flaw => s!"invalid row for table '{table}': {flaw.message}"
  | .duplicateKey table => s!"duplicate primary key in table '{table}'"

end Rollup
