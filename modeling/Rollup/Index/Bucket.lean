import Rollup.Index.Error
import Rollup.Storage.Transaction
import Rollup.Value.Decoding

/-!
# Buckets

The bucket of a group is a tree that holds what its documents contribute, each under the etag of
the document.
-/

namespace Rollup

structure Bucket where
  index : String
  hash : GroupHash
deriving DecidableEq, Repr

namespace Bucket

def tree (b : Bucket) : String := bucketTree b.index b.hash

/-! ### Writing -/

/-- Adds the tree of the bucket, unless it exists. -/
def create (b : Bucket) : Transaction.Step Unit := do
  let _ ← Transaction.createTree b.tree

def put (b : Bucket) (etag : Etag) (blob : Bytes) : Transaction.Step Unit :=
  Transaction.put b.tree etag.encode blob

def delete (b : Bucket) (etag : Etag) : Transaction.Step Bool :=
  Transaction.delete b.tree etag.encode

/-! ### Reading -/

/-- The contribution that an entry of the tree stores. -/
def ofStored (stored : Bytes × Bytes) : Except IndexError (Etag × Value) := do
  let etag ← (Etag.decode stored.1).mapError .ofKeyWidth
  let blob ← (Value.decode stored.2).mapError .encoding
  return (etag, blob)

/-- The contributions, in etag order; a bucket without a tree has none. -/
def entries (b : Bucket) (s : Snapshot) : Except IndexError (List (Etag × Value)) := do
  if s.hasTree b.tree then
    let stored ← (s.entriesFrom b.tree []).mapError .storage
    stored.mapM ofStored
  else return []

/-- The number of contributions. -/
def size (b : Bucket) (s : Snapshot) : Nat := s.treeSize b.tree

def isEmpty (b : Bucket) (s : Snapshot) : Bool := b.size s == 0

end Bucket

end Rollup
