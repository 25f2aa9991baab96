import Rollup.Proofs.Storage.Schema
import Rollup.Proofs.Storage.Transaction

/-!
# Agreement — what is read depends on the trees that it is read from

An operation changes one tree (`Operation.sameTree_of_apply`).  Whatever reads a tree reads the same
in two snapshots that have the same tree of that name, and a table answers the same where all its
trees are the same.
-/

namespace Rollup

open Rollup.Action

namespace Snapshot

/-- Both have the same tree of that name, or neither has one. -/
def SameTree (tree : String) (s t : Snapshot) : Prop := t.trees.get? tree = s.trees.get? tree

namespace SameTree

variable {n : String} {s t u : Snapshot}

theorem refl (n : String) (s : Snapshot) : SameTree n s s := rfl

theorem trans (h : SameTree n s t) (h' : SameTree n t u) : SameTree n s u := Eq.trans h' h

theorem hasTree (h : SameTree n s t) : t.hasTree n = s.hasTree n := by
  rw [hasTree_eq, hasTree_eq, h]

theorem cell (h : SameTree n s t) (k : Bytes) : t.cell n k = s.cell n k := by
  rw [Snapshot.cell, Snapshot.cell, h]

theorem tree (h : SameTree n s t) : t.tree n = s.tree n := by
  rw [Snapshot.tree, Snapshot.tree, h]

theorem lookup (h : SameTree n s t) (k : Bytes) : t.lookup n k = s.lookup n k := by
  rw [Snapshot.lookup, Snapshot.lookup, h.tree]

theorem entriesFrom (h : SameTree n s t) (k : Bytes) : t.entriesFrom n k = s.entriesFrom n k := by
  rw [Snapshot.entriesFrom, Snapshot.entriesFrom, h.tree]

theorem last? (h : SameTree n s t) : t.last? n = s.last? n := by
  rw [Snapshot.last?, Snapshot.last?, h.tree]

theorem treeSize (h : SameTree n s t) : t.treeSize n = s.treeSize n := by
  rw [Snapshot.treeSize, Snapshot.treeSize, h]

end SameTree

/-- The names that start so are those of the same trees. -/
theorem treeNamesFrom_congr {start : String} {s t : Snapshot}
    (h : ∀ n, start.toList <+: n.toList → SameTree n s t) :
    t.treeNamesFrom start = s.treeNamesFrom start := by
  refine OrderedMap.eq_of_ascending (f := id) ((OrderedMap.keys_ascending _).filter _)
    ((OrderedMap.keys_ascending _).filter _) fun n => ?_
  rw [treeNamesFrom, treeNamesFrom, List.mem_filter, List.mem_filter, List.isPrefixOf_iff_prefix]
  refine and_congr_left fun hstart => ?_
  rw [treeNames, treeNames, OrderedMap.mem_keys_iff, OrderedMap.mem_keys_iff, h n hstart]

end Snapshot

/-! ### Operations -/

namespace Operation

/-- The tree that an operation is on. -/
def tree : Operation → String
  | createTree tree | put tree _ _ | delete tree _ => tree

theorem sameTree_of_withTree {s t : Snapshot} {name n : String} {f : Tree → Tree}
    (h : s.withTree name f = .ok t) (hn : n ≠ name) : s.SameTree n t := by
  obtain ⟨old, -, h⟩ := bind_eq_ok_iff.1 h
  cases h
  show (s.trees.insert name _).get? n = _
  rw [OrderedMap.get?_insert, if_neg hn]

/-- **An operation** leaves all other trees as they are. -/
theorem sameTree_of_apply {s t : Snapshot} {op : Operation} (h : apply s op = .ok t) {n : String}
    (hn : n ≠ op.tree) : s.SameTree n t := by
  cases op with
  | createTree tree =>
      cases h
      show (s.addTree tree).trees.get? n = _
      rw [Snapshot.addTree]
      split
      · rfl
      · exact (OrderedMap.get?_insert ..).trans (if_neg hn)
  | put tree key value => exact sameTree_of_withTree h hn
  | delete tree key => exact sameTree_of_withTree h hn

end Operation

/-! ### Tables -/

namespace TableSchema

variable {table : TableSchema} {s t : Snapshot}

theorem lookup_congr (h : s.SameTree table.name t) (key : Bytes) :
    table.lookup t key = table.lookup s key := by
  rw [lookup, lookup, h.lookup]

theorem indexTree_owned {name : String} {index : IndexSchema} (h : table.index name = .ok index) :
    table.Owns (table.indexTree index) := by
  rw [TableSchema.index] at h
  split at h
  · next hfound =>
    cases h
    exact .inr ⟨index, List.mem_of_find?_eq_some hfound, rfl⟩
  · cases h

section

variable (h : ∀ tree, table.Owns tree → s.SameTree tree t)

include h

theorem seek_congr (name : String) (value : Bytes) :
    table.seek t name value = table.seek s name value := by
  have htarget : table.target t = table.target s := by
    funext index key
    rw [target, target, lookup_congr (h _ (.inl rfl))]
  rw [seek, seek]
  cases hindex : table.index name with
  | error e => rfl
  | ok index =>
      have hentries := (h _ (indexTree_owned hindex)).entriesFrom
      simp only [bind, Except.bind, hentries, htarget]

theorem scan_congr (name : String) : table.scan t name = table.scan s name := by
  rw [scan, scan]
  cases hindex : table.index name with
  | error e => rfl
  | ok index =>
      have hentries := (h _ (indexTree_owned hindex)).entriesFrom
      simp only [bind, Except.bind, hentries]

theorem lastKey_congr : table.lastKey t = table.lastKey s := by
  rw [lastKey, lastKey, (h _ (.inl rfl)).last?]

theorem size_congr : table.size t = table.size s := (h _ (.inl rfl)).treeSize

end

end TableSchema

end Rollup
