import Rollup.Action
import Rollup.Text.Utf8
import Rollup.Value.Encoding

/-!
# Reading the canonical form

Reads one value from the front of a byte string and accepts nothing but its canonical form: no
longer length than needed, map keys strictly ascending, no floating-point number, tag or
indefinite length.  The state of the reader is the input that is left; a failed read leaves it
where it stopped.
-/

namespace Rollup.Value

/-- A step of the reader, over the input that is left. -/
abbrev Reader (α : Type) : Type := Action Bytes EncodingError α

/-- The most items or pairs that one array or map may have. -/
def maxItems : Nat := 16 * 1024 * 1024

/-- The most bytes that one string may have. -/
def maxStringBytes : Nat := 256 * 1024 * 1024

/-- The next byte. -/
def readByte : Reader UInt8 := do
  match ← get with
  | [] => throw .endOfInput
  | byte :: rest => set rest; return byte

/-- The next `n` bytes; if there are fewer, none is taken. -/
def readBytes (n : Nat) : Reader Bytes := do
  match Bytes.cut? n (← get) with
  | none => throw .endOfInput
  | some (front, rest) => set rest; return front

/-- An argument of `width` bytes, which must not fit into fewer. -/
def readLongArgument (width least : Nat) : Reader Nat := do
  let n := Bytes.ofBigEndian (← readBytes width)
  if n < least then throw (.malformed .longArgument)
  return n

/-- The argument that the low five bits of an initial byte announce. -/
def readArgument (info : Nat) : Reader Nat :=
  if info < 24 then return info
  else if info = 24 then readLongArgument 1 24
  else if info = 25 then readLongArgument 2 (Bytes.capacity 1)
  else if info = 26 then readLongArgument 4 (Bytes.capacity 2)
  else if info = 27 then readLongArgument 8 (Bytes.capacity 4)
  else if info = 31 then throw .indefiniteLength
  else throw (.malformed .reservedInfo)

/-- A length, up to a limit. -/
def readLength (info limit : Nat) : Reader Nat := do
  let claimed ← readArgument info
  if limit < claimed then throw (.tooLarge claimed limit)
  return claimed

def readString (info : Nat) : Reader Bytes := do
  readBytes (← readLength info maxStringBytes)

/-- An integer in the range of 64 bits. -/
def fitInteger (n : Int) : Reader Value :=
  match int64? n with
  | some n => return .integer n
  | none => throw (.malformed .integerOutOfRange)

/-- The items without an argument. -/
def readSimple (info : Nat) : Reader Value :=
  if info = 20 then return .bool false
  else if info = 21 then return .bool true
  else if info = 22 then return .null
  else if 25 ≤ info ∧ info ≤ 27 then throw .float
  else if info = 31 then throw (.malformed .strayBreak)
  else throw (.unsupported (.simple info))

/-- Whether a key may follow another. -/
def follows (previous : Option Bytes) (key : Bytes) : Bool :=
  match previous with
  | none => true
  | some earlier => Bytes.shortlex earlier key == .lt

/-- Reads `n` pairs whose keys ascend, starting behind the key `previous`. -/
def readPairs (item : Reader Value) : Nat → Option Bytes → Reader (List (Value × Value))
  | 0, _ => return []
  | n + 1, previous => do
    let start ← get
    let key ← item
    let keyBytes := Bytes.consumed start (← get)
    unless follows previous keyBytes do throw (.malformed .keysOutOfOrder)
    let value ← item
    let rest ← readPairs item n (some keyBytes)
    return (key, value) :: rest

/-- Reads a value that may nest `levels` levels, itself counted. -/
def readValue : (levels : Nat) → Reader Value
  | 0 => throw (.tooDeep maxDepth)
  | levels + 1 => do
    let initial ← readByte
    let info := initial.toNat % 32
    match initial.toNat / 32 with
    | 0 => fitInteger (← readArgument info)
    | 1 => fitInteger (-1 - (← readArgument info))
    | 2 => return .bytes (← readString info)
    | 3 =>
      match Utf8.decode? (← readString info) with
      | some s => return .text s
      | none => throw .invalidUtf8
    | 4 => return .array (← (readValue levels).times (← readLength info maxItems))
    | 5 => return .map (← readPairs (readValue levels) (← readLength info maxItems) none)
    | 6 => throw (.unsupported .tagged)
    | _ => readSimple info

/-- Reads the next value of a stream. -/
def read : Reader Value := readValue (maxDepth + 1)

/-- The value whose canonical form is `bytes`. -/
def decode (bytes : Bytes) : Except EncodingError Value :=
  match read.exec bytes with
  | (.ok v, []) => .ok v
  | (.ok _, rest) => .error (.trailingBytes rest.length)
  | (.error e, _) => .error e

end Rollup.Value
