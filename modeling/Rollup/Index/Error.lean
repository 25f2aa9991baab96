import Rollup.FieldPath
import Rollup.Index.Keys
import Rollup.Storage.Error
import Rollup.Text.Lossy
import Rollup.Value.Error

/-!
# Failures of an index

Why a call to an index did not do its work.
-/

namespace Rollup

/-- What makes a definition unusable. -/
inductive DefinitionFlaw where
  | badName (name : String)
  | noGroupBy
  | groupByOperation (field operation : String)
  | duplicateField (field : String)
  | unknownOperation (text : String)
deriving DecidableEq, Repr

/-- What is wrong with the stored data of an index. -/
inductive FormatFlaw where
  | keyWidth (actual : Nat)
  | entryColumns (count : Nat)
  | noTextField (field : String)
  | noListField (field : String)
  | noDefinition (index : String)
  | otherDefinition (index stored : String)
deriving DecidableEq, Repr

/-- Why a call was refused. -/
inductive Refusal where
  | batchTooLarge (items limit : Nat)
  /-- The receiver of the results refused one. -/
  | results (reason : String)
deriving DecidableEq, Repr

inductive IndexError where
  | storage (e : StorageError)
  | encoding (e : EncodingError)
  | path (e : PathError)
  | notFound (index : String)
  | alreadyExists (index : String)
  | definition (flaw : DefinitionFlaw)
  | format (flaw : FormatFlaw)
  | refused (why : Refusal)
  | etagsExhausted
  | overflow (field : String)
  /-- One document of a batch failed. -/
  | document (index : String) (key : DocumentKey) (cause : IndexError)
deriving DecidableEq, Repr

def DefinitionFlaw.message : DefinitionFlaw → String
  | .badName name => s!"index name '{name}' must be non-empty and must not contain '/'"
  | .noGroupBy => "at least one group-by field is required"
  | .groupByOperation field operation => s!"group-by field '{field}' cannot use {operation}"
  | .duplicateField field => s!"duplicate field name '{field}'"
  | .unknownOperation text => s!"unknown field operation '{text}'"

def FormatFlaw.message : FormatFlaw → String
  | .keyWidth actual => s!"expected 8 key bytes, got {actual}"
  | .entryColumns count => s!"map entry row has {count} columns"
  | .noTextField field => s!"definition lacks text field '{field}'"
  | .noListField field => s!"definition lacks '{field}'"
  | .noDefinition index => s!"index '{index}' has no definition"
  | .otherDefinition index stored => s!"index '{index}' stores definition for '{stored}'"

def Refusal.message : Refusal → String
  | .batchTooLarge items limit => s!"batch of {items} items exceeds max_batch_size {limit}"
  | .results reason => reason

namespace IndexError

/-- Eight bytes were expected. -/
def ofKeyWidth (e : KeyWidthError) : IndexError := .format (.keyWidth e.actual)

def message : IndexError → String
  | .storage e => s!"storage error: {e.message}"
  | .encoding e => s!"codec error: {e.message}"
  | .path e => s!"codec error: {e.message}"
  | .notFound index => s!"index not found: {index}"
  | .alreadyExists index => s!"index already exists: {index}"
  | .definition flaw => s!"invalid index definition: {flaw.message}"
  | .format flaw => s!"invalid stored format: {flaw.message}"
  | .refused why => s!"invalid operation: {why.message}"
  | .etagsExhausted => "etag counter overflow"
  | .overflow field => s!"aggregation overflow in field '{field}'"
  | .document index key cause =>
    s!"index '{index}' failed on document '{Text.lossy key}': {cause.message}"

end IndexError

end Rollup
