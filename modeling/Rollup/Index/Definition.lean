import Rollup.FieldPath.Read
import Rollup.Index.Error
import Rollup.Value.Encoding

/-!
# Index definitions

A definition says how documents are grouped and what is aggregated in each group.  It is stored as
a value, and whatever is read back from one is valid.
-/

namespace Rollup

/-- What is made of the values of a field in one group: the first that is not null, their number,
or their sum. -/
inductive Aggregate where
  | first
  | count
  | sum
deriving DecidableEq, Repr

namespace Aggregate

def name : Aggregate → String
  | .first => "None"
  | .count => "Count"
  | .sum => "Sum"

/-- The aggregate of that name. -/
def ofName (text : String) : Except IndexError Aggregate :=
  if text = "None" then .ok .first
  else if text = "Count" then .ok .count
  else if text = "Sum" then .ok .sum
  else .error (.definition (.unknownOperation text))

end Aggregate

/-- A named field: where its value lies in a document, and how it is aggregated. -/
structure IndexField where
  name : String
  path : FieldPath
  aggregate : Aggregate
deriving DecidableEq, Repr

/-- The text field of a stored definition. -/
def textField (v : Value) (name : String) : Except IndexError String :=
  match (v.field? name).bind Value.asText with
  | some text => .ok text
  | none => .error (.format (.noTextField name))

/-- The list field of a stored definition. -/
def listField (v : Value) (name : String) : Except IndexError (List Value) :=
  match (v.field? name).bind Value.asArray with
  | some items => .ok items
  | none => .error (.format (.noListField name))

namespace IndexField

/-- A field with the path that a text writes. -/
def make (name path : String) (aggregate : Aggregate) : Except IndexError IndexField :=
  ((FieldPath.parse path).mapError .path).map fun path => ⟨name, path, aggregate⟩

/-- A field to group by, named by its path. -/
def groupBy (path : String) : Except IndexError IndexField := make path path .first

/-- A field to sum, named by its path. -/
def sum (path : String) : Except IndexError IndexField := make path path .sum

/-- A field that counts documents. -/
def count (name : String) : Except IndexError IndexField := make name name .count

def toValue (field : IndexField) : Value :=
  .object [("name", .text field.name), ("path", .text field.path.text),
    ("op", .text field.aggregate.name)]

def ofValue (v : Value) : Except IndexError IndexField := do
  let name ← textField v "name"
  let path ← textField v "path"
  let aggregate ← Aggregate.ofName (← textField v "op")
  make name path aggregate

/-- The value of the field in a document, with the field's name. -/
def named (field : IndexField) (document : Value) : String × Value :=
  (field.name, field.path.readOrNull document)

end IndexField

structure Definition where
  name : String
  collection : String
  /-- The aggregated fields. -/
  fields : List IndexField
  groupBy : List IndexField
deriving DecidableEq, Repr

namespace Definition

/-- The first name that an earlier one repeats. -/
def firstDuplicate : (seen : List String) → List String → Option String
  | _, [] => none
  | seen, name :: names =>
    if seen.contains name then some name else firstDuplicate (name :: seen) names

/-- What makes a definition unusable, if anything does. -/
def flaw? (d : Definition) : Option DefinitionFlaw :=
  if d.name.isEmpty || d.name.toList.contains '/' then some (.badName d.name)
  else if d.groupBy.isEmpty then some .noGroupBy
  else
    match d.groupBy.find? fun field => field.aggregate != .first with
    | some field => some (.groupByOperation field.name field.aggregate.name)
    | none => (firstDuplicate [] ((d.fields ++ d.groupBy).map (·.name))).map .duplicateField

def validate (d : Definition) : Except IndexError Unit :=
  match d.flaw? with
  | none => .ok ()
  | some flaw => .error (.definition flaw)

/-! ### Stored form -/

def toValue (d : Definition) : Value :=
  .object [("name", .text d.name), ("collection", .text d.collection),
    ("map", .array (d.fields.map IndexField.toValue)),
    ("group_by", .array (d.groupBy.map IndexField.toValue))]

def ofValue (v : Value) : Except IndexError Definition := do
  let name ← textField v "name"
  let collection ← textField v "collection"
  let fields ← (← listField v "map").mapM IndexField.ofValue
  let groupBy ← (← listField v "group_by").mapM IndexField.ofValue
  let d : Definition := ⟨name, collection, fields, groupBy⟩
  d.validate
  return d

/-! ### Projections of a document -/

/-- The group key of a document: its group-by fields. -/
def groupKey (d : Definition) (document : Value) : Value :=
  .object (d.groupBy.map (·.named document))

/-- What a document contributes to its group: one to every count, and the value at the path to
every other field. -/
def mapped (d : Definition) (document : Value) : Value :=
  .object (d.fields.map fun field =>
    match field.aggregate with
    | .count => (field.name, .integer 1)
    | .sum | .first => field.named document)

end Definition

end Rollup
