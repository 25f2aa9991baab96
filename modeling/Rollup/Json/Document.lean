import Rollup.Json.Printer
import Rollup.Value.Encoding

/-!
# JSON and document values

Documents come as JSON, whose integers have to fit into 64 bits and which has no byte strings.
Results go out as JSON: bytes become arrays of numbers, and a key that is no text is written as the
JSON text of its value.
-/

namespace Rollup

/-- A number that no document has. -/
inductive NumberError where
  | double (x : Binary64)
  | outOfRange (n : Int)
deriving DecidableEq, Repr

def NumberError.message : NumberError → String
  | .double x => s!"floating-point number {(JsonNumber.double x).text} is not supported"
  | .outOfRange n => s!"integer {n} is out of range"

/-- The value of a number. -/
def JsonNumber.toValue : JsonNumber → Except NumberError Value
  | .integer n =>
    match Value.int64? n with
    | some n => .ok (.integer n)
    | none => .error (.outOfRange n)
  | .double x => .error (.double x)

namespace Json

mutual
/-- The document value of JSON data; its first number that is none is the failure. -/
def toValue : Json → Except NumberError Value
  | .null => .ok .null
  | .bool b => .ok (.bool b)
  | .number n => n.toValue
  | .string s => .ok (.text s)
  | .array items => do return .array (← itemValues items)
  | .object members => do return .object (← memberValues members)

def itemValues : List Json → Except NumberError (List Value)
  | [] => .ok []
  | item :: items => do
    let v ← toValue item
    return v :: (← itemValues items)

def memberValues : List (String × Json) → Except NumberError (List (String × Value))
  | [] => .ok []
  | (name, value) :: members => do
    let v ← toValue value
    return (name, v) :: (← memberValues members)
end

mutual
/-- The JSON data of a value. -/
def ofValue : Value → Json
  | .null => .null
  | .bool b => .bool b
  | .integer n => .number (.integer n.toInt)
  | .bytes content => .array (content.map fun b => .number (.integer b.toNat))
  | .text s => .string s
  | .array items => .array (itemsOf items)
  | .map pairs => ofMembers (membersOf pairs)

def itemsOf : List Value → List Json
  | [] => []
  | item :: items => ofValue item :: itemsOf items

def membersOf : List (Value × Value) → List (String × Json)
  | [] => []
  | (key, value) :: pairs => (nameOf key, ofValue value) :: membersOf pairs

/-- The name under which a key appears: a text as it is, any other by its JSON text. -/
def nameOf : Value → String
  | .text s => s
  | .null => compact .null
  | .bool b => compact (.bool b)
  | .integer n => compact (.number (.integer n.toInt))
  | .bytes content => compact (.array (content.map fun b => .number (.integer b.toNat)))
  | .array items => compact (.array (itemsOf items))
  | .map pairs => compact (ofMembers (membersOf pairs))
end

end Json

end Rollup
