import Rollup.Index.Keys
import Rollup.Value

/-!
# Documents

What flows into an index: documents under keys, and changes to them.
-/

namespace Rollup

structure Document where
  key : DocumentKey
  data : Value
deriving DecidableEq

/-- A new or changed document, or the end of one. -/
inductive Change where
  | put (document : Document)
  | delete (key : DocumentKey)
deriving DecidableEq

/-- The key of the document that a change concerns. -/
def Change.key : Change → DocumentKey
  | .put document => document.key
  | .delete key => key

/-- What one mapped document contributes: to which group, and under which etag. -/
structure Entry where
  etag : Etag
  document : DocumentKey
  hash : GroupHash
deriving DecidableEq, Repr

end Rollup
