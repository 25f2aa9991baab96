import Rollup.FieldPath
import Rollup.Value

/-!
# Reading through a path

What a path finds in a document: nothing, one value, or the values of a sequence in order.  Missing
names and values of the wrong kind are no failures; before the first comma they mean that nothing
is found, behind it they leave the element out.
-/

namespace Rollup

/-- What a path found. -/
inductive Found where
  | one (v : Value)
  | many (vs : List Value)
deriving DecidableEq

/-- A sequence becomes an array. -/
def Found.toValue : Found → Value
  | .one v => v
  | .many vs => .array vs

namespace FieldPath

/-- The value under a chain of names. -/
def descend (v : Value) : List String → Option Value
  | [] => some v
  | name :: names => do descend (← v.field? name) names

/-- The elements `levels` arrays deep; what is not an array before that is left out. -/
def flatten : (levels : Nat) → Value → List Value
  | 0, v => [v]
  | levels + 1, .array items => items.flatMap (flatten levels)
  | _ + 1, _ => []

/-- The values that the steps make of the elements of an array. -/
def expand : List FieldStep → List Value → List Value
  | [], items => items
  | step :: steps, items =>
    let found := (items.flatMap (flatten step.levels)).filterMap (descend · step.names)
    if steps.isEmpty then found
    else found.flatMap fun v => (v.asArray.map (expand steps)).getD []

/-- What the path finds in a document. -/
def read (path : FieldPath) (document : Value) : Option Found := do
  let v ← descend document path.head
  if path.steps.isEmpty then return .one v
  let items ← v.asArray
  return .many (expand path.steps items)

/-- The value at the path, or null. -/
def readOrNull (path : FieldPath) (document : Value) : Value :=
  ((path.read document).map Found.toValue).getD .null

end FieldPath

end Rollup
