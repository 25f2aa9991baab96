import Rollup.Action
import Rollup.Checksum
import Rollup.Storage.Operation
import Rollup.Text.Utf8

/-!
# Log records

A commit is one record of the log: a header with magic, version and payload length, the payload,
and a checksum over both.  Numbers are little-endian.  The payload is the number of operations and
the operations in order, each with its tag and its fields behind their lengths.
-/

namespace Rollup.Record

/-- The four bytes that open a record. -/
def magic : Bytes := [0x41, 0x52, 0x4C, 0x47]

/-- The newest version of the format, and the one that is written. -/
def currentVersion : Nat := 1

def headerSize : Nat := 10

def checksumSize : Nat := 4

/-! ### Writing -/

def encodeField (field : Bytes) : Except Damage Bytes :=
  let length := field.length
  if length < Bytes.capacity 4 then .ok (Bytes.littleEndian 4 length ++ field)
  else .error .fieldTooLong

/-- A tag and the fields behind it. -/
def encodeTagged (tag : UInt8) (fields : List Bytes) : Except Damage Bytes :=
  return tag :: (← fields.mapM encodeField).flatten

def encodeOperation : Operation → Except Damage Bytes
  | .createTree tree => encodeTagged 1 [Utf8.encode tree]
  | .put tree key value => encodeTagged 2 [Utf8.encode tree, key, value]
  | .delete tree key => encodeTagged 3 [Utf8.encode tree, key]

def encodePayload (ops : List Operation) : Except Damage Bytes :=
  let count := ops.length
  if count < Bytes.capacity 4 then
    return Bytes.littleEndian 4 count ++ (← ops.mapM encodeOperation).flatten
  else .error .tooManyOperations

/-- Header and payload, followed by their checksum. -/
def frame (payload : Bytes) : Bytes :=
  let body := magic ++ Bytes.littleEndian 2 currentVersion ++
    Bytes.littleEndian 4 payload.length ++ payload
  body ++ Bytes.littleEndian 4 (Crc32.checksum body).toNat

/-- The record of a commit. -/
def encode (ops : List Operation) : Except Damage Bytes := do
  let payload ← encodePayload ops
  if payload.length < Bytes.capacity 4 then .ok (frame payload) else .error .payloadTooLong

/-! ### Reading -/

/-- A step of the payload reader, over the bytes that are left. -/
abbrev Reader (α : Type) : Type := Action Bytes Damage α

def readBytes (n : Nat) : Reader Bytes := do
  match Bytes.cut? n (← get) with
  | none => throw .payloadTruncated
  | some (front, rest) => set rest; return front

def readNumber (width : Nat) : Reader Nat :=
  return Bytes.ofLittleEndian (← readBytes width)

def readField : Reader Bytes := do readBytes (← readNumber 4)

def readTreeName : Reader String := do
  match Utf8.decode? (← readField) with
  | some name => return name
  | none => throw .treeName

def readOperation : Reader Operation := do
  let tag ← readNumber 1
  let tree ← readTreeName
  match tag with
  | 1 => return .createTree tree
  | 2 =>
    let key ← readField
    return .put tree key (← readField)
  | 3 => return .delete tree (← readField)
  | other => throw (.operation other)

/-- The operations of a payload; bytes behind the last one do not matter. -/
def readPayload : Reader (List Operation) := do readOperation.times (← readNumber 4)

end Rollup.Record
