import Rollup.Bytes

/-!
# Document values

The dynamic values that documents, group keys and reduced results are made of.  Integers have 64
bits; there are no fractions.  A map is a list of pairs as it stands: neither order nor distinct
keys is demanded of it.
-/

namespace Rollup

inductive Value where
  | null
  | bool (b : Bool)
  | integer (n : Int64)
  | bytes (b : Bytes)
  | text (s : String)
  | array (items : List Value)
  | map (pairs : List (Value × Value))
deriving Inhabited

namespace Value

/-! ### Equality -/

mutual
/-- Equal values, of one kind and with equal parts in the same order. -/
def same : Value → Value → Bool
  | .null, .null => true
  | .bool a, .bool b => a == b
  | .integer a, .integer b => a == b
  | .bytes a, .bytes b => a == b
  | .text a, .text b => a == b
  | .array a, .array b => sameItems a b
  | .map a, .map b => samePairs a b
  | _, _ => false

def sameItems : List Value → List Value → Bool
  | [], [] => true
  | a :: as, b :: bs => same a b && sameItems as bs
  | _, _ => false

def samePairs : List (Value × Value) → List (Value × Value) → Bool
  | [], [] => true
  | (j, a) :: as, (k, b) :: bs => same j k && same a b && samePairs as bs
  | _, _ => false
end

mutual
theorem same_iff : ∀ a b : Value, same a b = true ↔ a = b
  | .null, b => by cases b <;> simp [same]
  | .bool _, b => by cases b <;> simp [same]
  | .integer _, b => by cases b <;> simp [same]
  | .bytes _, b => by cases b <;> simp [same]
  | .text _, b => by cases b <;> simp [same]
  | .array a, b => by cases b <;> simp [same, sameItems_iff a]
  | .map a, b => by cases b <;> simp [same, samePairs_iff a]

theorem sameItems_iff : ∀ a b : List Value, sameItems a b = true ↔ a = b
  | [], b => by cases b <;> simp [sameItems]
  | a :: as, b => by cases b <;> simp [sameItems, same_iff a, sameItems_iff as]

theorem samePairs_iff : ∀ a b : List (Value × Value), samePairs a b = true ↔ a = b
  | [], b => by cases b <;> simp [samePairs]
  | (j, a) :: as, b => by
    cases b with
    | nil => simp [samePairs]
    | cons p bs => cases p; simp [samePairs, same_iff j, same_iff a, samePairs_iff as]
end

instance : DecidableEq Value := fun a b => decidable_of_iff _ (same_iff a b)

/-! ### Kinds -/

/-- The name of a value's kind. -/
def typeName : Value → String
  | .null => "null"
  | .bool _ => "bool"
  | .integer _ => "integer"
  | .bytes _ => "bytes"
  | .text _ => "text"
  | .array _ => "array"
  | .map _ => "map"

def isNull : Value → Bool
  | .null => true
  | _ => false

def asBool : Value → Option Bool
  | .bool b => some b
  | _ => none

def asInteger : Value → Option Int64
  | .integer n => some n
  | _ => none

def asBytes : Value → Option Bytes
  | .bytes b => some b
  | _ => none

def asText : Value → Option String
  | .text s => some s
  | _ => none

def asArray : Value → Option (List Value)
  | .array items => some items
  | _ => none

def asMap : Value → Option (List (Value × Value))
  | .map pairs => some pairs
  | _ => none

/-- The value under a field name: that of the first pair whose key is this text. -/
def field? (v : Value) (field : String) : Option Value := do
  let pairs ← v.asMap
  let pair ← pairs.find? fun p => p.1.asText == some field
  return pair.2

/-! ### Integers -/

/-- An integer as a 64-bit number, if it fits. -/
def int64? (n : Int) : Option Int64 :=
  if Int64.minValue.toInt ≤ n ∧ n ≤ Int64.maxValue.toInt then some (Int64.ofInt n) else none

theorem int64?_eq_some_iff {n : Int} {k : Int64} : int64? n = some k ↔ k.toInt = n := by
  rw [int64?]
  split
  · next h =>
    have hfits : (Int64.ofInt n).toInt = n :=
      Int64.toInt_ofInt_of_le h.1 (Int.lt_of_le_sub_one h.2)
    constructor
    · rintro ⟨⟩
      exact hfits
    · rintro rfl
      rw [Int64.ofInt_toInt]
  · next h =>
    refine ⟨fun hnone => (by cases hnone), fun hk => absurd ?_ h⟩
    subst hk
    exact ⟨k.minValue_le_toInt, k.toInt_le⟩

/-- The exact sum, if it fits. -/
def addExact? (a b : Int64) : Option Int64 := int64? (a.toInt + b.toInt)

end Value

end Rollup
