import Rollup.Storage.Snapshot

/-!
# Operations

The changes that a commit makes to a snapshot, one at a time.
-/

namespace Rollup

inductive Operation where
  | createTree (tree : String)
  | put (tree : String) (key value : Bytes)
  | delete (tree : String) (key : Bytes)
deriving DecidableEq, Repr

namespace Operation

/-- The snapshot after an operation; `put` and `delete` need their tree. -/
def apply (s : Snapshot) : Operation → Except StorageError Snapshot
  | .createTree tree => .ok (s.addTree tree)
  | .put tree key value => s.withTree tree (·.insert key value)
  | .delete tree key => s.withTree tree (·.erase key)

/-- The snapshot after a list of operations, in order. -/
def applyAll (s : Snapshot) (ops : List Operation) : Except StorageError Snapshot :=
  ops.foldlM apply s

end Operation

end Rollup
