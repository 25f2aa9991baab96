import Mathlib.Data.List.Sort
import Rollup.Proofs.Index.Contents

/-!
# Outputs — what a group is reduced to

A bucket is read in the order of its etags, each blob with the value that it encodes
(`Bucket.entries_ascending`, `Bucket.mem_entries_iff`).  The output of a group depends on its bucket
and its recorded key alone (`reduceIn_congr`), and a group has one just when its bucket is not
empty (`isSome_iff_of_reduceIn`).  The groups that are reduced together are those (`hashesIn_eq`).
-/

namespace Rollup

/-! ### Buckets -/

namespace Bucket

/-- A bucket without a tree reads like an empty one. -/
theorem entries_eq (b : Bucket) (s : Snapshot) :
    b.entries s = (s.treeAt b.tree).entries.mapM ofStored := by
  have hall : (s.treeAt b.tree).entriesFrom [] = (s.treeAt b.tree).entries := by
    rw [OrderedMap.entriesFrom_eq_filter, List.filter_eq_self]
    rintro ⟨k, v⟩ -
    cases k <;> rfl
  rw [entries]
  split
  · next htree =>
    rw [Snapshot.entriesFrom_eq, if_pos htree, hall]
    rfl
  · next htree =>
    have hnone : s.trees.get? b.tree = none := by simpa [Snapshot.hasTree_eq] using htree
    rw [Snapshot.treeAt, hnone]
    rfl

theorem ofStored_eq_ok_iff {stored : Bytes × Bytes} {etag : Etag} {v : Value} :
    ofStored stored = .ok (etag, v) ↔ stored.1 = etag.encode ∧ Value.decode stored.2 = .ok v := by
  rw [ofStored, bind_eq_ok_iff]
  simp only [bind_eq_ok_iff, mapError_eq_ok_iff, Etag.decode_eq_ok_iff]
  constructor
  · rintro ⟨etag', hetag, v', hv, h⟩
    cases h
    exact ⟨hetag, hv⟩
  · rintro ⟨hetag, hv⟩
    exact ⟨etag, hetag, v, hv, rfl⟩

variable {b : Bucket} {s : Snapshot} {found : List (Etag × Value)}

/-- **A bucket is read in etag order.** -/
theorem entries_ascending (h : b.entries s = .ok found) :
    found.Pairwise fun x y => x.1.toNat < y.1.toNat := by
  rw [entries_eq, mapM_eq_ok_iff] at h
  have hkeys : (s.treeAt b.tree).keys = found.map (·.1.encode) := by
    rw [OrderedMap.keys]
    generalize (s.treeAt b.tree).entries = stored at h
    induction h with
    | nil => rfl
    | cons hx _ ih => rw [List.map_cons, List.map_cons, ih, (ofStored_eq_ok_iff.1 hx).1]
  have hasc := (s.treeAt b.tree).keys_ascending
  rw [hkeys, List.pairwise_map] at hasc
  exact hasc.imp fun hlt => by rwa [Etag.compare_encode, Nat.compare_eq_lt] at hlt

/-- **A bucket is read whole**, every blob with the value that it encodes. -/
theorem mem_entries_iff (h : b.entries s = .ok found) {etag : Etag} {v : Value} :
    (etag, v) ∈ found ↔
      ∃ blob, s.cell b.tree etag.encode = some blob ∧ Value.decode blob = .ok v := by
  rw [entries_eq] at h
  rw [mem_of_mapM h]
  simp only [ofStored_eq_ok_iff, Prod.exists, Snapshot.mem_entries_treeAt]
  constructor
  · rintro ⟨_, blob, hcell, rfl, hv⟩
    exact ⟨blob, hcell, hv⟩
  · rintro ⟨blob, hcell, hv⟩
    exact ⟨_, blob, hcell, rfl, hv⟩

/-- **A bucket that has lost some contributions** is read as before without them. -/
theorem entries_filter {t : Snapshot} (h : b.entries s = .ok found) (p : Etag → Bool)
    (hsub : ∀ k v, t.cell b.tree k = some v → s.cell b.tree k = some v)
    (hp : ∀ etag v, s.cell b.tree etag.encode = some v →
      (t.cell b.tree etag.encode = some v ↔ p etag = true)) :
    b.entries t = .ok (found.filter fun e => p e.1) := by
  obtain ⟨left, hleft⟩ : ∃ left, b.entries t = .ok left := by
    rw [entries_eq] at h ⊢
    refine mapM_isOk_iff.2 fun stored hstored => mapM_isOk_iff.1 ⟨found, h⟩ stored ?_
    rw [Snapshot.mem_entries_treeAt] at hstored ⊢
    exact hsub _ _ hstored
  rw [hleft]
  -- both lists are in etag order
  have hirrefl : Std.Irrefl fun x y : Etag × Value => x.1.toNat < y.1.toNat :=
    ⟨fun x => Nat.lt_irrefl _⟩
  have hanti : Std.Antisymm fun x y : Etag × Value => x.1.toNat < y.1.toNat :=
    ⟨fun x y hxy hyx => absurd hyx (Nat.lt_asymm hxy)⟩
  refine congrArg _ ((entries_ascending hleft).eq_of_mem_iff ((entries_ascending h).filter _) ?_)
  rintro ⟨etag, v⟩
  rw [List.mem_filter, mem_entries_iff hleft, mem_entries_iff h]
  constructor
  · rintro ⟨blob, hcell, hv⟩
    have hold := hsub _ _ hcell
    exact ⟨⟨blob, hold, hv⟩, (hp etag blob hold).1 hcell⟩
  · rintro ⟨⟨blob, hcell, hv⟩, hkeep⟩
    exact ⟨blob, (hp etag blob hcell).2 hkeep, hv⟩

theorem eq_nil_iff (h : b.entries s = .ok found) : found = [] ↔ ∀ k, s.cell b.tree k = none := by
  rw [entries_eq, mapM_eq_ok_iff] at h
  simp only [← Snapshot.get?_treeAt, ← OrderedMap.isEmpty_iff, OrderedMap.isEmpty,
    List.isEmpty_iff]
  constructor
  · rintro rfl
    exact List.forall₂_nil_right_iff.1 h
  · intro hnil
    rw [hnil] at h
    exact List.forall₂_nil_left_iff.1 h

end Bucket

/-! ### Groups -/

theorem Reduction.eq_none_iff {d : Definition} {key : Option Value} {blobs : List Value}
    {output : Option Value} (h : reduce d key blobs = .ok output) : output = none ↔ blobs = [] := by
  rw [reduce] at h
  split at h
  · next hempty =>
    cases h
    simpa using List.isEmpty_iff.1 hempty
  · next hempty =>
    obtain ⟨fields, -, h⟩ := bind_eq_ok_iff.1 h
    cases h
    simpa using hempty

namespace Index

variable {ix : Index} {s t : Snapshot} {hash : GroupHash} {output : Option Value}

/-- **An output** is the reduction of the bucket and the recorded key of its group. -/
theorem reduceIn_eq_ok_iff : ix.reduceIn s hash = .ok output ↔
    ∃ entries key, ix.bucketIn s hash = .ok entries ∧ ix.groupKeyIn s hash = .ok key ∧
      Reduction.reduce ix.definition key (entries.map (·.2)) = .ok output := by
  rw [reduceIn, bind_eq_ok_iff]
  simp only [bind_eq_ok_iff, exists_and_left]
  rfl

/-- Only the definition matters. -/
theorem reduceIn_of_definition {ix' : Index} (h : ix'.definition = ix.definition) :
    ix'.reduceIn = ix.reduceIn := by
  funext s hash
  rw [reduceIn, reduceIn, groupKeyIn, groupKeyIn, name, name, h]

variable {c c' : Contents}

theorem lookup_groupKey (h : c.Holds ix.name s) :
    s.lookup (groupKeyTree ix.name) hash.encode = .ok (c.groupKeys hash) := by
  rw [Snapshot.lookup_eq, h.groupKey_eq]
  exact if_pos h.groupKeys

/-- **The output of a group** depends on its bucket and its recorded key alone. -/
theorem reduceIn_congr (h : c.Holds ix.name s) (h' : c'.Holds ix.name t)
    (hkeys : c'.groupKeys hash = c.groupKeys hash) (hblobs : c'.blobs hash = c.blobs hash) :
    ix.reduceIn t hash = ix.reduceIn s hash := by
  have hbucket : (Bucket.mk ix.name hash).entries t = (Bucket.mk ix.name hash).entries s := by
    rw [Bucket.entries_eq, Bucket.entries_eq]
    refine congrArg (fun tree : Tree => tree.entries.mapM Bucket.ofStored) ?_
    refine Snapshot.treeAt_congr fun k => ?_
    show t.cell (bucketTree ix.name hash) k = s.cell (bucketTree ix.name hash) k
    rw [h.bucket_eq, h'.bucket_eq, hblobs]
  rw [reduceIn, reduceIn, groupKeyIn, groupKeyIn, hbucket, lookup_groupKey h, lookup_groupKey h',
    hkeys]

/-- An empty bucket has no tree, or an empty one. -/
theorem occupied_iff (h : c.Holds ix.name s) :
    c.Occupied hash ↔ ∃ k, s.cell (bucketTree ix.name hash) k ≠ none := by
  simp only [h.bucket_eq]
  rw [← not_iff_not]
  push Not
  rw [cellsOf_eq_none_iff Etag.decode_eq_ok_iff]
  simp [Contents.Occupied]

/-- A key is recorded for the groups whose bucket is not empty. -/
theorem isSome_iff_of_groupKeyIn (h : c.Holds ix.name s) (hl : c.Lockstep) {key : Option Value}
    (hkey : ix.groupKeyIn s hash = .ok key) : key.isSome = true ↔ c.Occupied hash := by
  rw [← hl.groupKeys]
  rw [groupKeyIn, lookup_groupKey h] at hkey
  obtain ⟨_, hlookup, hkey⟩ := bind_eq_ok_iff.1 hkey
  cases hlookup
  cases hstored : c.groupKeys hash with
  | none =>
      rw [hstored] at hkey
      cases hkey
      rfl
  | some stored =>
      rw [hstored] at hkey
      obtain ⟨v, -, hkey⟩ := bind_eq_ok_iff.1 hkey
      cases hkey
      rfl

/-- A group whose bucket is empty has no output. -/
theorem reduceIn_of_not_occupied (h : c.Holds ix.name s) (hl : c.Lockstep)
    (hempty : ¬ c.Occupied hash) : ix.reduceIn s hash = .ok none := by
  have hcell : ∀ k, s.cell (bucketTree ix.name hash) k = none := by
    by_contra hne
    push Not at hne
    exact hempty ((occupied_iff h).2 hne)
  have hbucket : (Bucket.mk ix.name hash).entries s = .ok [] := by
    have hnil := OrderedMap.isEmpty_iff.2 fun k => (Snapshot.get?_treeAt s _ k).trans (hcell k)
    rw [Bucket.entries_eq]
    show (s.treeAt (bucketTree ix.name hash)).entries.mapM Bucket.ofStored = _
    rw [List.isEmpty_iff.1 hnil]
    rfl
  have hkey : ix.groupKeyIn s hash = .ok none := by
    have hnone : c.groupKeys hash = none := by
      rw [← Option.not_isSome_iff_eq_none, hl.groupKeys]
      exact hempty
    rw [groupKeyIn, lookup_groupKey h, hnone]
    rfl
  exact reduceIn_eq_ok_iff.2 ⟨[], none, hbucket, hkey, rfl⟩

/-- **A group has an output** just when its bucket is not empty. -/
theorem isSome_iff_of_reduceIn (h : c.Holds ix.name s) (houtput : ix.reduceIn s hash = .ok output) :
    output.isSome = true ↔ c.Occupied hash := by
  obtain ⟨entries, key, hbucket, -, hreduce⟩ := reduceIn_eq_ok_iff.1 houtput
  rw [Option.isSome_iff_ne_none, ne_eq, Reduction.eq_none_iff hreduce, List.map_eq_nil_iff,
    Bucket.eq_nil_iff hbucket, occupied_iff h]
  push Not
  rfl

/-- **The groups that are reduced together** are those whose bucket is not empty. -/
theorem hashesIn_eq (h : c.Holds ix.name s) (hl : c.Lockstep) :
    ∃ hashes, ix.hashesIn s = .ok hashes ∧ ∀ hash, hash ∈ hashes ↔ c.Occupied hash := by
  obtain ⟨hashes, hfound, hmem, -⟩ := EntryTable.hashes_eq h.table
  refine ⟨hashes, hfound, fun hash => ?_⟩
  rw [hmem]
  exact exists_congr fun etag => (hl.blobs hash etag).symm

end Index

end Rollup
