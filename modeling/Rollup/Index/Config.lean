import Rollup.Index.Keys

/-!
# Configuration and statistics

How an index works on its batches, and what it has done so far.
-/

namespace Rollup

structure Config where
  /-- The most changes that one batch may have. -/
  maxBatchSize : Nat := 16 * 1024
  /-- Whether a batch reduces the groups that it touched. -/
  reduceAfterBatch : Bool := true
  syncOnCommit : Bool := true
  /-- How the bytes of a group key are hashed; two keys may share a hash. -/
  hash : Bytes → GroupHash := GroupHash.ofBytes

instance : Inhabited Config := ⟨{}⟩

/-- Counts of committed work, and of batches.  They wrap around. -/
structure Counters where
  mapped : UInt64 := 0
  deleted : UInt64 := 0
  retracted : UInt64 := 0
  reduced : UInt64 := 0
  committed : UInt64 := 0
  failed : UInt64 := 0
deriving DecidableEq, Repr, Inhabited

/-- What the counters say. -/
structure Stats where
  mapped : Nat
  deleted : Nat
  retracted : Nat
  reduced : Nat
  committed : Nat
  failed : Nat
deriving DecidableEq, Repr, Inhabited

def Counters.snapshot (counters : Counters) : Stats where
  mapped := counters.mapped.toNat
  deleted := counters.deleted.toNat
  retracted := counters.retracted.toNat
  reduced := counters.reduced.toNat
  committed := counters.committed.toNat
  failed := counters.failed.toNat

end Rollup
