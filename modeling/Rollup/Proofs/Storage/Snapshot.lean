import Rollup.Proofs.OrderedMap
import Rollup.Storage.Snapshot

/-!
# Snapshots — trees and cells

A snapshot is which trees it has and what their cells hold (`ext_cell`).  `put`, `remove` and
`addTree` change one cell, one cell, and no cell; every reader is given by `hasTree` and by
`treeAt`, the tree of a name, empty if there is none.
-/

namespace Rollup.Snapshot

/-- What a tree holds under a key. -/
def cell (s : Snapshot) (tree : String) (key : Bytes) : Option Bytes :=
  (s.trees.get? tree).bind (·.get? key)

/-- The tree of a name, empty if there is none. -/
def treeAt (s : Snapshot) (tree : String) : Tree := (s.trees.get? tree).getD .empty

@[simp] theorem get?_treeAt (s : Snapshot) (tree : String) (key : Bytes) :
    (s.treeAt tree).get? key = s.cell tree key := by
  rw [treeAt, cell]
  cases s.trees.get? tree <;> rfl

theorem treeAt_congr {s t : Snapshot} {m n : String} (h : ∀ k, s.cell m k = t.cell n k) :
    s.treeAt m = t.treeAt n :=
  OrderedMap.ext_get? fun k => by simpa using h k

theorem mem_entries_treeAt {s : Snapshot} {tree : String} {e : Bytes × Bytes} :
    e ∈ (s.treeAt tree).entries ↔ s.cell tree e.1 = some e.2 := by
  rw [← get?_treeAt, OrderedMap.get?_eq_some_iff]

theorem hasTree_eq (s : Snapshot) (tree : String) :
    s.hasTree tree = (s.trees.get? tree).isSome := rfl

theorem cell_of_not_hasTree {s : Snapshot} {tree : String} (h : s.hasTree tree = false)
    (key : Bytes) : s.cell tree key = none := by
  rw [hasTree_eq, Option.isSome_eq_false_iff, Option.isNone_iff_eq_none] at h
  rw [cell, h]
  rfl

/-- What holds something is there. -/
theorem hasTree_of_cell {s : Snapshot} {tree : String} {k v : Bytes}
    (h : s.cell tree k = some v) : s.hasTree tree = true := by
  cases htree : s.hasTree tree with
  | true => rfl
  | false =>
      rw [cell_of_not_hasTree htree] at h
      cases h

/-- **A snapshot is its trees and their cells.** -/
theorem ext_cell {s t : Snapshot} (htree : ∀ n, s.hasTree n = t.hasTree n)
    (hcell : ∀ n k, s.cell n k = t.cell n k) : s = t := by
  cases s with
  | mk m =>
  cases t with
  | mk m' =>
  refine congrArg mk (OrderedMap.ext_get? fun n => ?_)
  have hn := htree n
  have hc : ∀ k, (m.get? n).bind (·.get? k) = (m'.get? n).bind (·.get? k) := hcell n
  simp only [hasTree_eq] at hn
  cases h : m.get? n <;> cases h' : m'.get? n <;> simp only [h, h'] at hn hc
  · rfl
  · cases hn
  · cases hn
  · exact congrArg some (OrderedMap.ext_get? hc)

/-! ### Writing -/

@[simp] theorem hasTree_empty (tree : String) : empty.hasTree tree = false := rfl

@[simp] theorem cell_empty (tree : String) (key : Bytes) : empty.cell tree key = none := rfl

@[simp] theorem hasTree_addTree (s : Snapshot) (tree n : String) :
    (s.addTree tree).hasTree n = (decide (n = tree) || s.hasTree n) := by
  rw [addTree]
  split
  · next h => by_cases hn : n = tree <;> simp [hn, h]
  · simp only [hasTree_eq, OrderedMap.get?_insert]
    by_cases hn : n = tree <;> simp [hn]

@[simp] theorem cell_addTree (s : Snapshot) (tree n : String) (k : Bytes) :
    (s.addTree tree).cell n k = s.cell n k := by
  rw [addTree]
  split
  · rfl
  · next h =>
    by_cases hn : n = tree
    · rw [hn, cell_of_not_hasTree (Bool.eq_false_iff.2 h), cell, OrderedMap.get?_insert]
      simp [OrderedMap.get?_empty]
    · simp [cell, OrderedMap.get?_insert, hn]

/-- The snapshot with an entry put into a tree, if there is that tree. -/
def put (s : Snapshot) (tree : String) (key value : Bytes) : Snapshot :=
  match s.trees.get? tree with
  | some t => ⟨s.trees.insert tree (t.insert key value)⟩
  | none => s

/-- The snapshot without an entry of a tree. -/
def remove (s : Snapshot) (tree : String) (key : Bytes) : Snapshot :=
  match s.trees.get? tree with
  | some t => ⟨s.trees.insert tree (t.erase key)⟩
  | none => s

theorem withTree_insert (s : Snapshot) (tree : String) (key value : Bytes) :
    s.withTree tree (·.insert key value) =
      if s.hasTree tree then .ok (s.put tree key value) else .error (.noTree tree) := by
  rcases h : s.trees.get? tree with _ | t <;>
    simp only [withTree, Snapshot.tree, hasTree_eq, put, h] <;> rfl

theorem withTree_erase (s : Snapshot) (tree : String) (key : Bytes) :
    s.withTree tree (·.erase key) =
      if s.hasTree tree then .ok (s.remove tree key) else .error (.noTree tree) := by
  rcases h : s.trees.get? tree with _ | t <;>
    simp only [withTree, Snapshot.tree, hasTree_eq, remove, h] <;> rfl

@[simp] theorem hasTree_put (s : Snapshot) (tree n : String) (key value : Bytes) :
    (s.put tree key value).hasTree n = s.hasTree n := by
  rw [put]
  split
  · next t h =>
    simp only [hasTree_eq, OrderedMap.get?_insert]
    by_cases hn : n = tree <;> simp [hn, h]
  · rfl

theorem cell_put {s : Snapshot} {tree : String} (h : s.hasTree tree = true) (key value : Bytes)
    (n : String) (k : Bytes) :
    (s.put tree key value).cell n k = if n = tree ∧ k = key then some value else s.cell n k := by
  obtain ⟨t, ht⟩ := Option.isSome_iff_exists.1 (hasTree_eq s tree ▸ h)
  simp only [put, ht, cell, OrderedMap.get?_insert]
  by_cases hn : n = tree
  · by_cases hk : k = key <;> simp [hn, hk, ht, OrderedMap.get?_insert]
  · simp [hn]

@[simp] theorem hasTree_remove (s : Snapshot) (tree n : String) (key : Bytes) :
    (s.remove tree key).hasTree n = s.hasTree n := by
  rw [remove]
  split
  · next t h =>
    simp only [hasTree_eq, OrderedMap.get?_insert]
    by_cases hn : n = tree <;> simp [hn, h]
  · rfl

theorem cell_remove (s : Snapshot) (tree : String) (key : Bytes) (n : String) (k : Bytes) :
    (s.remove tree key).cell n k = if n = tree ∧ k = key then none else s.cell n k := by
  rw [remove]
  split
  · next t ht =>
    simp only [cell, OrderedMap.get?_insert]
    by_cases hn : n = tree
    · by_cases hk : k = key <;> simp [hn, hk, ht, OrderedMap.get?_erase]
    · simp [hn]
  · next ht =>
    by_cases hn : n = tree
    · simp [hn, cell, ht]
    · simp [hn]

/-- Removing what is not there changes nothing. -/
theorem remove_eq_self {s : Snapshot} {tree : String} {key : Bytes}
    (h : s.cell tree key = none) : s.remove tree key = s := by
  refine ext_cell (by simp) fun n k => ?_
  rw [cell_remove]
  split
  · next e => rw [e.1, e.2, h]
  · rfl

/-! ### Reading -/

theorem tree_eq (s : Snapshot) (tree : String) :
    s.tree tree = if s.hasTree tree then .ok (s.treeAt tree) else .error (.noTree tree) := by
  rcases h : s.trees.get? tree with _ | t <;>
    simp only [Snapshot.tree, hasTree_eq, treeAt, h] <;> rfl

theorem lookup_eq (s : Snapshot) (tree : String) (key : Bytes) :
    s.lookup tree key =
      if s.hasTree tree then .ok (s.cell tree key) else .error (.noTree tree) := by
  rw [lookup, tree_eq]
  split
  · rw [← get?_treeAt]
    rfl
  · rfl

theorem entriesFrom_eq (s : Snapshot) (tree : String) (key : Bytes) :
    s.entriesFrom tree key =
      if s.hasTree tree then .ok ((s.treeAt tree).entriesFrom key) else .error (.noTree tree) := by
  rw [entriesFrom, tree_eq]
  split <;> rfl

theorem last?_eq (s : Snapshot) (tree : String) :
    s.last? tree =
      if s.hasTree tree then .ok (s.treeAt tree).last? else .error (.noTree tree) := by
  rw [last?, tree_eq]
  split <;> rfl

theorem treeSize_eq (s : Snapshot) (tree : String) : s.treeSize tree = (s.treeAt tree).size := by
  rw [treeSize, treeAt]
  cases s.trees.get? tree <;> rfl

theorem treeSize_eq_zero_iff {s : Snapshot} {tree : String} :
    s.treeSize tree = 0 ↔ ∀ k, s.cell tree k = none := by
  simp [treeSize_eq, OrderedMap.size_eq_zero_iff]

end Rollup.Snapshot
