import Rollup.Bytes
import Rollup.XxHash64

/-!
# Keys of an index

Etags number the mapped documents of an index, hashes name its groups.  Both are stored as eight
bytes, highest first, so that the order of the bytes is the order of the numbers.  The trees of an
index carry its name in front.
-/

namespace Rollup

/-- The number given to a document when it is mapped; zero before the first. -/
structure Etag where
  val : UInt64
deriving DecidableEq, Repr, Inhabited

/-- The hash of a group key, which names the bucket of the group. -/
structure GroupHash where
  val : UInt64
deriving DecidableEq, Repr, Inhabited

/-- The key that a document goes by. -/
abbrev DocumentKey := Bytes

/-- The bytes of a stored number that should have been eight. -/
structure KeyWidthError where
  actual : Nat
deriving DecidableEq, Repr

/-- A number of 64 bits as eight bytes, highest first. -/
def wordBytes (n : UInt64) : Bytes := Bytes.bigEndian 8 n.toNat

/-- The number that eight bytes store. -/
def word? (stored : Bytes) : Except KeyWidthError UInt64 :=
  if stored.length = 8 then .ok (Bytes.ofBigEndian stored).toUInt64 else .error ⟨stored.length⟩

namespace Etag

def zero : Etag := ⟨0⟩

def max (a b : Etag) : Etag := if a.val < b.val then b else a

/-- The etag behind this one, unless this one is the last. -/
def next? (e : Etag) : Option Etag := if e.val = -1 then none else some ⟨e.val + 1⟩

def toNat (e : Etag) : Nat := e.val.toNat

def encode (e : Etag) : Bytes := wordBytes e.val

def decode (stored : Bytes) : Except KeyWidthError Etag := (word? stored).map Etag.mk

/-- The etag with its name in front. -/
def label (e : Etag) : String := s!"etag:{e.toNat}"

end Etag

namespace GroupHash

/-- The hash of the bytes of a group key. -/
def ofBytes (key : Bytes) : GroupHash := ⟨XxHash64.hash 0 key⟩

instance : Ord GroupHash := ⟨fun a b => compare a.val b.val⟩

instance : Std.TransOrd GroupHash where
  eq_swap {a b} := Std.OrientedOrd.eq_swap (a := a.val) (b := b.val)
  isLE_trans h₁ h₂ := Std.TransOrd.isLE_trans (α := UInt64) h₁ h₂

instance : Std.LawfulEqOrd GroupHash where
  compare_self {a} := Std.ReflOrd.compare_self (a := a.val)
  eq_of_compare {a b} h := by
    cases a; cases b
    exact congrArg GroupHash.mk (Std.LawfulEqOrd.eq_of_compare h)

def encode (h : GroupHash) : Bytes := wordBytes h.val

def decode (stored : Bytes) : Except KeyWidthError GroupHash := (word? stored).map GroupHash.mk

/-- Sixteen hexadecimal digits. -/
def text (h : GroupHash) : String := Bytes.toHex h.encode

end GroupHash

/-! ### Trees -/

/-- The tree of the definition and of the last etag. -/
def metaTree (index : String) : String := index ++ "/meta"

/-- The table of the map entries. -/
def entryTable (index : String) : String := index ++ "/MapResults"

/-- The tree of the group keys, by hash. -/
def groupKeyTree (index : String) : String := index ++ "/ReduceKeys"

/-- What the names of all bucket trees start with. -/
def bucketTreeStart (index : String) : String := index ++ "/reduce/"

/-- The tree of a bucket. -/
def bucketTree (index : String) (hash : GroupHash) : String := bucketTreeStart index ++ hash.text

end Rollup
