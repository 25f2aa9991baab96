import Rollup.Action
import Rollup.Storage.Operation

/-!
# Transactions

A transaction works on a snapshot of its own and lists the operations that changed it.  Nobody else
sees either before it is committed, and dropping it is all there is to a rollback.
-/

namespace Rollup

/-- A write transaction: the snapshot it works on and what it did so far. -/
structure Transaction where
  working : Snapshot
  ops : Array Operation
deriving Inhabited

namespace Transaction

/-- A step of a transaction. -/
abbrev Step (α : Type) : Type := Action Transaction StorageError α

/-- A transaction that has done nothing yet. -/
def on (snapshot : Snapshot) : Transaction := ⟨snapshot, #[]⟩

/-- The number of operations so far. -/
def pending (txn : Transaction) : Nat := txn.ops.size

/-- Adds an empty tree, and answers whether there was none of that name. -/
def createTree (tree : String) : Step Bool := do
  let txn ← get
  if txn.working.hasTree tree then return false
  set (Transaction.mk (txn.working.addTree tree) (txn.ops.push (.createTree tree)))
  return true

/-- Puts an entry into a tree, over an entry of the same key. -/
def put (tree : String) (key value : Bytes) : Step Unit := do
  let txn ← get
  let working ← Action.lift (txn.working.withTree tree (·.insert key value))
  set (Transaction.mk working (txn.ops.push (.put tree key value)))

/-- Removes an entry from a tree, and answers whether there was one. -/
def delete (tree : String) (key : Bytes) : Step Bool := do
  let txn ← get
  let present ← Action.lift (txn.working.lookup tree key)
  if present.isNone then return false
  let working ← Action.lift (txn.working.withTree tree (·.erase key))
  set (Transaction.mk working (txn.ops.push (.delete tree key)))
  return true

/-- Reads what the transaction itself sees. -/
def view {α : Type} (read : Snapshot → Except StorageError α) : Step α := do
  Action.lift (read (← get).working)

end Transaction

end Rollup
