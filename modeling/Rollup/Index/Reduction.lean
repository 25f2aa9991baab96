import Rollup.Index.Definition

/-!
# Reduction

Folds what the documents of one group contribute into one output document.
-/

namespace Rollup.Reduction

/-- Adds up integers from left to right, as long as every sum fits. -/
def sumExact? (ns : List Int64) : Option Int64 := ns.foldlM Value.addExact? 0

/-- What one contribution adds to a sum: its integer, or the integers of its array. -/
def contribution? : Value → Option Int64
  | .integer n => some n
  | .array items => sumExact? (items.filterMap Value.asInteger)
  | _ => some 0

/-- The sum of all contributions. -/
def total? (values : List Value) : Option Int64 := do
  values.foldlM (fun total v => do Value.addExact? total (← contribution? v)) 0

/-- The output of one field. -/
def reduceField (field : IndexField) (blobs : List Value) : Except IndexError Value :=
  let values := blobs.filterMap (·.field? field.name)
  match field.aggregate with
  | .count | .sum =>
    match total? values with
    | some n => .ok (.integer n)
    | none => .error (.overflow field.name)
  | .first => .ok ((values.find? fun v => !v.isNull).getD .null)

/-- The output of a group: its key's fields, and the aggregated ones.  An empty group has none. -/
def reduce (d : Definition) (groupKey : Option Value) (blobs : List Value) :
    Except IndexError (Option Value) := do
  if blobs.isEmpty then return none
  let keys := d.groupBy.map fun field =>
    (field.name, (groupKey.bind (·.field? field.name)).getD .null)
  let fields ← d.fields.mapM fun field => return (field.name, ← reduceField field blobs)
  return some (.object (keys ++ fields))

end Rollup.Reduction
