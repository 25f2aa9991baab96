/-!
# Failures of the binary form

Why a value cannot be written, or a byte string is not the binary form of a value.
-/

namespace Rollup

/-- A byte string that breaks the rules of the canonical form. -/
inductive Malformation where
  | integerOutOfRange
  | reservedInfo
  | longArgument
  | keysOutOfOrder
  | strayBreak
deriving DecidableEq, Repr

/-- A kind of item that documents do not have. -/
inductive ForeignItem where
  | tagged
  | simple (code : Nat)
deriving DecidableEq, Repr

inductive EncodingError where
  | float
  | indefiniteLength
  | invalidUtf8
  | endOfInput
  | trailingBytes (remaining : Nat)
  | malformed (what : Malformation)
  | unsupported (item : ForeignItem)
  | tooLarge (claimed limit : Nat)
  | tooDeep (limit : Nat)
deriving DecidableEq, Repr

def Malformation.message : Malformation → String
  | .integerOutOfRange => "integer exceeds i64 range"
  | .reservedInfo => "reserved additional info"
  | .longArgument => "non-canonical: value could be encoded in fewer bytes"
  | .keysOutOfOrder => "non-canonical: map keys not in sorted order"
  | .strayBreak => "break without indefinite"

def ForeignItem.message : ForeignItem → String
  | .tagged => "tagged value"
  | .simple code => s!"simple value {code}"

def EncodingError.message : EncodingError → String
  | .float => "float values are forbidden in canonical CBOR"
  | .indefiniteLength => "indefinite-length items are forbidden"
  | .invalidUtf8 => "invalid UTF-8 string"
  | .endOfInput => "unexpected end of input"
  | .trailingBytes remaining => s!"{remaining} trailing bytes after document"
  | .malformed what => s!"invalid CBOR structure: {what.message}"
  | .unsupported item => s!"unsupported CBOR type: {item.message}"
  | .tooLarge claimed limit => s!"size limit exceeded: claimed {claimed}, max {limit}"
  | .tooDeep limit => s!"nesting depth exceeds {limit}"

end Rollup
