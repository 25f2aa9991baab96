import Rollup.Action
import Rollup.Text.Utf8
import Rollup.Value
import Rollup.Value.Error

/-!
# The canonical binary form

Writes values as CBOR in its canonical form: every length in the fewest bytes, map keys in the
order of their encodings, shorter ones first.  Values nest at most `maxDepth` levels deep; a writer
that meets a deeper one stops there and keeps what it has written.
-/

namespace Rollup.Value

/-- How deep a value may lie in another. -/
def maxDepth : Nat := 128

/-- What writing a value produced: the bytes so far, and whether it came to the end. -/
structure Written where
  bytes : Bytes
  complete : Bool

namespace Written

def nothing : Written := ⟨[], true⟩

/-- A whole piece. -/
def piece (bytes : Bytes) : Written := ⟨bytes, true⟩

/-- Goes on writing, if the first part came to its end. -/
def andThen (a b : Written) : Written :=
  if a.complete then ⟨a.bytes ++ b.bytes, b.complete⟩ else a

def concat (parts : List Written) : Written := parts.foldr andThen nothing

end Written

/-- The head of an item: its major type and its argument, in the fewest bytes. -/
def head (major : Nat) (argument : Nat) : Bytes :=
  let initial (info : Nat) : UInt8 := (32 * major + info).toUInt8
  if argument < 24 then [initial argument]
  else if argument < Bytes.capacity 1 then initial 24 :: Bytes.bigEndian 1 argument
  else if argument < Bytes.capacity 2 then initial 25 :: Bytes.bigEndian 2 argument
  else if argument < Bytes.capacity 4 then initial 26 :: Bytes.bigEndian 4 argument
  else initial 27 :: Bytes.bigEndian 8 argument

/-- A negative integer is written as its distance from minus one. -/
def integerBytes (n : Int64) : Bytes :=
  match n.toInt with
  | .ofNat m => head 0 m
  | .negSucc m => head 1 m

/-- Keys in canonical order; keys with one encoding keep their order. -/
def keyLe {α : Type} (a b : Bytes × α) : Bool := (Bytes.shortlex a.1 b.1).isLE

mutual
/-- Writes a value that lies `depth` levels deep. -/
def write (depth : Nat) (v : Value) : Written :=
  if maxDepth < depth then ⟨[], false⟩
  else
    match v with
    | .null => .piece [0xF6]
    | .bool false => .piece [0xF4]
    | .bool true => .piece [0xF5]
    | .integer n => .piece (integerBytes n)
    | .bytes content => .piece (head 2 content.length ++ content)
    | .text s =>
      let utf8 := Utf8.encode s
      .piece (head 3 utf8.length ++ utf8)
    | .array items =>
      (Written.piece (head 4 items.length)).andThen (.concat (writeItems (depth + 1) items))
    | .map pairs =>
      let written := writePairs (depth + 1) pairs
      if written.all (·.1.complete) then
        let sorted := (written.map fun p => (p.1.bytes, p.2)).mergeSort keyLe
        (Written.piece (head 5 pairs.length)).andThen
          (.concat (sorted.map fun p => (Written.piece p.1).andThen p.2))
      else ⟨[], false⟩

def writeItems (depth : Nat) : List Value → List Written
  | [] => []
  | item :: items => write depth item :: writeItems depth items

def writePairs (depth : Nat) : List (Value × Value) → List (Written × Written)
  | [] => []
  | (key, value) :: pairs => (write depth key, write depth value) :: writePairs depth pairs
end

/-- The canonical form of a value. -/
def encode (v : Value) : Except EncodingError Bytes :=
  let written := write 0 v
  if written.complete then .ok written.bytes else .error (.tooDeep maxDepth)

/-- Appends the canonical form to a buffer; a failure leaves what was written before it. -/
def emit (v : Value) : Action Bytes EncodingError Unit := do
  let written := write 0 v
  modify (· ++ written.bytes)
  unless written.complete do throw (.tooDeep maxDepth)

/-! ### Maps in canonical order -/

/-- The bytes by which a key is ordered; one that has no canonical form counts as empty. -/
def orderBytes (key : Value) : Bytes :=
  match key.encode with
  | .ok form => form
  | .error _ => []

/-- A map with its pairs in canonical order. -/
def ofPairs (pairs : List (Value × Value)) : Value :=
  .map (((pairs.map fun p => (orderBytes p.1, p)).mergeSort keyLe).map (·.2))

/-- A map from field names, in canonical order. -/
def object (fields : List (String × Value)) : Value :=
  ofPairs (fields.map fun f => (.text f.1, f.2))

end Rollup.Value
