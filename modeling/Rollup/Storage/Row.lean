import Rollup.Action
import Rollup.Storage.Error

/-!
# Rows

A row is a list of columns.  It is stored as the number of columns and then each column behind its
length, all numbers in four bytes, lowest first.
-/

namespace Rollup

structure Row where
  columns : List Bytes
deriving DecidableEq, Repr

namespace Row

/-- A column, or nothing for a column past the end. -/
def column (row : Row) (i : Nat) : Bytes := row.columns[i]?.getD []

def encodeLength (n : Nat) : Except Damage Bytes :=
  if n < Bytes.capacity 4 then .ok (Bytes.littleEndian 4 n) else .error .rowTooLong

def encodeColumn (column : Bytes) : Except Damage Bytes :=
  return (← encodeLength column.length) ++ column

/-- The stored form of a row. -/
def encode (row : Row) : Except Damage Bytes := do
  let count ← encodeLength row.columns.length
  return count ++ (← row.columns.mapM encodeColumn).flatten

/-- A step of the row reader, over the bytes that are left. -/
abbrev Reader (α : Type) : Type := Action Bytes Damage α

def readLength : Reader Nat := do
  match Bytes.cut? 4 (← get) with
  | none => throw .rowHeader
  | some (front, rest) => set rest; return Bytes.ofLittleEndian front

def readColumn : Reader Bytes := do
  let length ← readLength
  match Bytes.cut? length (← get) with
  | none => throw .rowColumn
  | some (front, rest) => set rest; return front

/-- The row that bytes store; bytes behind the last column do not matter. -/
def decode (stored : Bytes) : Except Damage Row :=
  let columns : Reader (List Bytes) := do readColumn.times (← readLength)
  (columns.exec stored).1.map Row.mk

end Row

end Rollup
