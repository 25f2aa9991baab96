import Rollup.OrderedMap
import Rollup.Storage.Error

/-!
# Snapshots

The content of a store at one moment: named trees, each a map from byte strings to byte strings in
key order.
-/

namespace Rollup

/-- A map from byte strings to byte strings, in key order. -/
abbrev Tree := OrderedMap Bytes Bytes

/-- All trees of a store, by name. -/
structure Snapshot where
  trees : OrderedMap String Tree
deriving DecidableEq, Inhabited

namespace Snapshot

def empty : Snapshot := ⟨.empty⟩

/-! ### Reading -/

def hasTree (s : Snapshot) (tree : String) : Bool := s.trees.contains tree

/-- The tree of that name, which has to exist. -/
def tree (s : Snapshot) (name : String) : Except StorageError Tree :=
  match s.trees.get? name with
  | some t => .ok t
  | none => .error (.noTree name)

def lookup (s : Snapshot) (tree : String) (key : Bytes) : Except StorageError (Option Bytes) :=
  return (← s.tree tree).get? key

/-- The entries of a tree at or after a key. -/
def entriesFrom (s : Snapshot) (tree : String) (key : Bytes) :
    Except StorageError (List (Bytes × Bytes)) :=
  return (← s.tree tree).entriesFrom key

/-- The entry of a tree with the greatest key. -/
def last? (s : Snapshot) (tree : String) : Except StorageError (Option (Bytes × Bytes)) :=
  return (← s.tree tree).last?

/-- The number of entries of a tree; one that does not exist has none. -/
def treeSize (s : Snapshot) (tree : String) : Nat := ((s.trees.get? tree).map (·.size)).getD 0

def treeCount (s : Snapshot) : Nat := s.trees.size

def treeNames (s : Snapshot) : List String := s.trees.keys

/-- The names of the trees whose names start so. -/
def treeNamesFrom (s : Snapshot) (start : String) : List String :=
  s.treeNames.filter fun name => start.toList.isPrefixOf name.toList

/-! ### Writing -/

/-- Adds an empty tree, unless there is one of that name. -/
def addTree (s : Snapshot) (name : String) : Snapshot :=
  if s.hasTree name then s else ⟨s.trees.insert name .empty⟩

/-- Changes a tree, which has to exist. -/
def withTree (s : Snapshot) (name : String) (f : Tree → Tree) : Except StorageError Snapshot :=
  return ⟨s.trees.insert name (f (← s.tree name))⟩

end Snapshot

end Rollup
