import Rollup.Proofs.Index.Cutting
import Rollup.Proofs.Index.Desk
import Rollup.Proofs.Index.Lockstep
import Rollup.Proofs.Index.Results

/-!
# Undoing — a document is mapped and removed again

Mapping a document without entries enters one row, one blob and perhaps the key of its group;
removing it takes the row and the blob back, and the recorded key goes if the bucket is left empty.
So all that can differ afterwards is the last etag, a bucket that has a tree now, and that key
(`Contents.Holds.restored_iff`).  The trees are as they were just when the key was recorded if and
only if the bucket had something in it (`Snapshot.GroupInStep`).

Trees in lockstep are so for every group.  So along all runs of an index the trees are restored, in
one transaction or in two, driven by hand or as batches, and results that were in step stay as they
were (`Live.mapped_then_removed`).
-/

namespace Rollup

open Rollup.Action Update

/-! ### Snapshots -/

namespace Snapshot

/-- The trees with another last etag of an index, and with a tree for the bucket of a group. -/
def passed (s : Snapshot) (index : String) (hash : GroupHash) (last : Etag) : Snapshot :=
  (s.addTree (bucketTree index hash)).put (metaTree index) Index.lastEtagKey last.encode

/-- The trees are as they were, but for the last etag, which has advanced, and for the bucket of a
group, which may have an empty tree now. -/
def Restored (index : String) (hash : GroupHash) (s t : Snapshot) : Prop :=
  ∃ before after : Etag, s.cell (metaTree index) Index.lastEtagKey = some before.encode ∧
    before.toNat < after.toNat ∧ t = s.passed index hash after

/-- The key of a group is recorded just when its bucket is not empty. -/
def GroupInStep (index : String) (hash : GroupHash) (s : Snapshot) : Prop :=
  s.cell (groupKeyTree index) hash.encode ≠ none ↔ ∃ k, s.cell (bucketTree index hash) k ≠ none

/-- The trees of other indexes are the same, and of this index only the bucket of a group can have
got its tree. -/
structure Confined (index : String) (hash : GroupHash) (s t : Snapshot) : Prop where
  cell : ∀ n, (∀ site : Site, n ≠ site.tree index) → ∀ k, t.cell n k = s.cell n k
  hasTree : ∀ n, n ≠ bucketTree index hash → t.hasTree n = s.hasTree n
  bucket : s.hasTree (bucketTree index hash) = true → t.hasTree (bucketTree index hash) = true

variable {index : String} {hash : GroupHash} {s t u : Snapshot}

theorem Confined.refl (index : String) (hash : GroupHash) (s : Snapshot) :
    s.Confined index hash s := ⟨fun _ _ _ => rfl, fun _ _ => rfl, id⟩

theorem Confined.trans (h : s.Confined index hash t) (h' : t.Confined index hash u) :
    s.Confined index hash u where
  cell n hn k := (h'.cell n hn k).trans (h.cell n hn k)
  hasTree n hn := (h'.hasTree n hn).trans (h.hasTree n hn)
  bucket hs := h'.bucket (h.bucket hs)

theorem hasTree_passed (s : Snapshot) (index : String) (hash : GroupHash) (last : Etag)
    (n : String) : (s.passed index hash last).hasTree n =
      (decide (n = bucketTree index hash) || s.hasTree n) := by
  rw [passed, hasTree_put, hasTree_addTree]

theorem cell_passed (h : s.hasTree (metaTree index) = true) (hash : GroupHash) (last : Etag)
    (n : String) (k : Bytes) : (s.passed index hash last).cell n k =
      if n = metaTree index ∧ k = Index.lastEtagKey then some last.encode else s.cell n k := by
  rw [passed, cell_put (by simp [h]), cell_addTree]

/-- So the outputs of all groups are the same. -/
theorem Restored.reduceIn_eq {ix : Index} (h : s.Restored ix.name hash t) (k : GroupHash) :
    ix.reduceIn t k = ix.reduceIn s k := by
  obtain ⟨before, after, hlast, -, rfl⟩ := h
  have hmeta := hasTree_of_cell hlast
  have hcell : ∀ site : Site, site ≠ .settings → ∀ key,
      (s.passed ix.name hash after).cell (site.tree ix.name) key =
        s.cell (site.tree ix.name) key := fun site hsite key => by
    rw [cell_passed hmeta, if_neg]
    rintro ⟨htree, -⟩
    exact hsite (Site.metaTree_eq_iff.1 htree.symm).2
  have hbucket : (Bucket.mk ix.name k).entries (s.passed ix.name hash after) =
      (Bucket.mk ix.name k).entries s := by
    rw [Bucket.entries_eq, Bucket.entries_eq]
    refine congrArg (fun tree : Tree => tree.entries.mapM Bucket.ofStored) ?_
    refine treeAt_congr fun key => ?_
    have hsame := hcell (.bucket k) (by simp) key
    rwa [Site.tree_bucket] at hsame
  have hkey : (s.passed ix.name hash after).lookup (groupKeyTree ix.name) k.encode =
      s.lookup (groupKeyTree ix.name) k.encode := by
    have htree : groupKeyTree ix.name ≠ bucketTree ix.name hash := fun htree => by
      rw [← Site.tree_groupKeys, ← Site.tree_bucket, Site.tree_inj] at htree
      cases htree
    have hsame := hcell .groupKeys (by simp) k.encode
    rw [Site.tree_groupKeys] at hsame
    rw [lookup_eq, lookup_eq, hasTree_passed, hsame, decide_eq_false htree, Bool.false_or]
  rw [Index.reduceIn, Index.reduceIn, Index.groupKeyIn, Index.groupKeyIn, hbucket, hkey]

end Snapshot

/-- The operation opens the bucket of a group, or it changes a tree of the index. -/
inductive Operation.ForGroup (index : String) (hash : GroupHash) : Operation → Prop where
  | bucket : ForGroup index hash (.createTree (bucketTree index hash))
  | put (site : Site) (key value : Bytes) : ForGroup index hash (.put (site.tree index) key value)
  | delete (site : Site) (key : Bytes) : ForGroup index hash (.delete (site.tree index) key)

theorem Transaction.kept_confined (index : String) (hash : GroupHash) (s : Snapshot) :
    Kept (Operation.ForGroup index hash) fun txn => s.Confined index hash txn.working where
  push := by
    intro txn op t hop happly h
    refine h.trans ?_
    cases hop with
    | bucket =>
        cases happly
        exact ⟨by simp, fun n hn => by simp [hn], by simp⟩
    | put site key value =>
        refine ⟨fun n hn => (Operation.sameTree_of_apply happly (hn site)).cell, ?_, ?_⟩ <;>
        rw [Operation.apply_put] at happly <;> split at happly <;> cases happly <;> simp
    | delete site key =>
        refine ⟨fun n hn => (Operation.sameTree_of_apply happly (hn site)).cell, ?_, ?_⟩ <;>
        rw [Operation.apply_delete] at happly <;> split at happly <;> cases happly <;> simp

/-- The rows of a table tell what is in its trees. -/
theorem TableSchema.Holds.cell_eq {table : TableSchema} {rows : Bytes → Option Row}
    {s t : Snapshot} (hs : table.Holds rows s) (ht : table.Holds rows t) {tree : String}
    (howns : table.Owns tree) (k : Bytes) : t.cell tree k = s.cell tree k := by
  refine Option.ext fun stored => ?_
  rcases howns with rfl | ⟨index, hindex, rfl⟩
  · rw [ht.cell, hs.cell]
  · rw [ht.entry index hindex, hs.entry index hindex]

/-! ### Contents -/

namespace Contents

section

variable (c : Contents) (etag : Etag) (m : Mapping) (blob key : Bytes)

theorem rows_remove_enter (hrow : c.rows etag = none) :
    ((c.enter etag m blob key).remove etag m.hash).rows = c.rows := by
  funext f
  rw [rows_remove, rows_enter]
  split
  · next e => rw [e, hrow]
  · rfl

theorem blobs_remove_enter (hblob : c.blobs m.hash etag = none) :
    ((c.enter etag m blob key).remove etag m.hash).blobs = c.blobs := by
  funext hash f
  rw [blobs_remove, blobs_enter]
  split
  · next e => rw [e.1, e.2, hblob]
  · rfl

/-- Whether the recorded key of the group comes out as it was depends on the bucket. -/
theorem groupKeys_remove_enter_eq_iff (hblob : c.blobs m.hash etag = none) :
    ((c.enter etag m blob key).remove etag m.hash).groupKeys m.hash = c.groupKeys m.hash ↔
      ((c.groupKeys m.hash).isSome = true ↔ c.Occupied m.hash) := by
  classical
  have hkey : ((c.enter etag m blob key).remove etag m.hash).groupKeys m.hash =
      if c.Occupied m.hash then some ((c.groupKeys m.hash).getD key) else none := by
    rw [groupKeys_remove_self, Occupied, blobs_remove_enter c etag m blob key hblob,
      groupKeys_enter, if_pos rfl]
    rfl
  rw [hkey]
  by_cases hocc : c.Occupied m.hash
  · cases hrecorded : c.groupKeys m.hash <;> simp [hocc]
  · cases hrecorded : c.groupKeys m.hash <;> simp [hocc]

/-- **Entered and removed again**, a document leaves the contents as they were but for the last
etag, if the key of its group was recorded just when the bucket was not empty. -/
theorem remove_enter_eq (hrow : c.rows etag = none) (hblob : c.blobs m.hash etag = none)
    (hstep : (c.groupKeys m.hash).isSome = true ↔ c.Occupied m.hash) :
    (c.enter etag m blob key).remove etag m.hash = c.setLast etag := by
  have hkeys : ((c.enter etag m blob key).remove etag m.hash).groupKeys = c.groupKeys := by
    funext hash
    rcases eq_or_ne hash m.hash with rfl | hne
    · exact (c.groupKeys_remove_enter_eq_iff etag m blob key hblob).2 hstep
    · rw [groupKeys_remove_of_ne _ _ _ hne, groupKeys_enter, if_neg hne]
  have hrows := c.rows_remove_enter etag m blob key hrow
  have hblobs := c.blobs_remove_enter etag m blob key hblob
  have hlast := last_remove (c.enter etag m blob key) etag m.hash
  have hdefinition := definition_remove (c.enter etag m blob key) etag m.hash
  rw [last_enter] at hlast
  rw [definition_enter] at hdefinition
  -- part by part
  generalize (c.enter etag m blob key).remove etag m.hash = c' at *
  cases c'
  cases c
  simp only at hkeys hrows hblobs hlast hdefinition
  rw [hkeys, hrows, hblobs, hlast, hdefinition, setLast]

end

namespace Holds

variable {index : String} {c : Contents} {s t : Snapshot} {etag : Etag} {m : Mapping}
  {blob key : Bytes}

theorem groupInStep_iff (h : c.Holds index s) (hash : GroupHash) :
    s.GroupInStep index hash ↔ ((c.groupKeys hash).isSome = true ↔ c.Occupied hash) := by
  have hocc : (∃ k, s.cell (bucketTree index hash) k ≠ none) ↔ c.Occupied hash := by
    simp only [h.bucket_eq]
    rw [← not_iff_not]
    push Not
    rw [cellsOf_eq_none_iff Etag.decode_eq_ok_iff]
    simp [Occupied]
  rw [Snapshot.GroupInStep, h.groupKey_eq, hocc, Option.isSome_iff_ne_none]

/-- Contents that differ in the last etag are trees that do. -/
theorem eq_passed {hash : GroupHash} (hs : c.Holds index s) (ht : (c.setLast etag).Holds index t)
    (hconfined : s.Confined index hash t) (hbucket : t.hasTree (bucketTree index hash) = true) :
    t = s.passed index hash etag := by
  refine Snapshot.ext_cell (fun n => ?_) fun n k => ?_
  · rw [Snapshot.hasTree_passed]
    rcases eq_or_ne n (bucketTree index hash) with rfl | hn
    · simp [hbucket]
    · simp [hn, hconfined.hasTree n hn]
  · rw [Snapshot.cell_passed hs.settings]
    by_cases hsite : ∃ site : Site, n = site.tree index
    · obtain ⟨site, rfl⟩ := hsite
      have hmeta : site.tree index = metaTree index ↔ site = .settings :=
        @Site.tree_inj index site .settings
      rw [if_congr (and_congr_left fun _ => hmeta) rfl rfl]
      by_cases htable : site.InTable
      · rw [hs.table.cell_eq ht.table (EntryTable.owns_site_iff.2 htable), if_neg]
        rintro ⟨rfl, -⟩
        exact Site.not_inTable_settings htable
      · rw [ht.cell site htable, hs.cell site htable, cell_setLast]
    · rw [hconfined.cell n (not_exists.1 hsite), if_neg]
      rintro ⟨rfl, -⟩
      exact hsite ⟨.settings, rfl⟩

/-- **Trees after a document was entered and removed again** are as they were just when the key of
its group was recorded if and only if the bucket was not empty. -/
theorem restored_iff (hs : c.Holds index s) (m : Mapping)
    (ht : ((c.enter etag m blob key).remove etag m.hash).Holds index t)
    (hconfined : s.Confined index m.hash t)
    (hbucket : t.hasTree (bucketTree index m.hash) = true) (hrow : c.rows etag = none)
    (hblob : c.blobs m.hash etag = none) (hlt : c.last.toNat < etag.toNat) :
    s.Restored index m.hash t ↔ s.GroupInStep index m.hash := by
  rw [hs.groupInStep_iff]
  constructor
  · rintro ⟨before, after, -, -, rfl⟩
    -- the recorded key is one of the cells that are as they were
    have hkey := ht.groupKey_eq m.hash
    rw [Snapshot.cell_passed hs.settings, if_neg, hs.groupKey_eq] at hkey
    · exact (c.groupKeys_remove_enter_eq_iff etag m blob key hblob).1 hkey.symm
    · rintro ⟨htree, -⟩
      cases (Site.metaTree_eq_iff.1 (Eq.symm htree : metaTree index = Site.groupKeys.tree index)).2
  · intro hstep
    rw [c.remove_enter_eq etag m blob key hrow hblob hstep] at ht
    exact ⟨c.last, etag, hs.last_eq, hlt, hs.eq_passed ht hconfined hbucket⟩

/-- A bucket that something was entered into has a tree. -/
theorem hasTree_bucket_of_enter (h : (c.enter etag m blob key).Holds index s) :
    s.hasTree (bucketTree index m.hash) = true := by
  have hcell := h.bucket_eq m.hash etag.encode
  rw [cellsOf_encode Etag.decode_eq_ok_iff, blobs_enter, if_pos ⟨rfl, rfl⟩] at hcell
  exact Snapshot.hasTree_of_cell hcell

/-- A document without entries has no rows, and its key can be looked for. -/
theorem of_ofDocument_nil {document : DocumentKey} (h : c.Holds index s)
    (hnone : EntryTable.ofDocument index s document = .ok []) :
    document.length < Bytes.capacity 4 ∧ ∀ f m, c.rows f = some m → m.document ≠ document := by
  by_cases hlen : document.length < Bytes.capacity 4
  · obtain ⟨found, hfound, hmem, -⟩ := EntryTable.ofDocument_eq h.table hlen
    rw [hnone] at hfound
    cases hfound
    exact ⟨hlen, fun f m hrow hdocument => absurd
      ((hmem (EntryTable.entryOf f m)).2 ⟨m, hrow, hdocument, rfl⟩) List.not_mem_nil⟩
  · obtain ⟨e, he⟩ := @EntryTable.ofDocument_of_long index s document hlen
    rw [hnone] at he
    cases he

/-- Then it has the one entry that it is entered with. -/
theorem ofDocument_of_enter (h : (c.enter etag m blob key).Holds index s)
    (hlen : m.document.length < Bytes.capacity 4)
    (hnone : ∀ f m', c.rows f = some m' → m'.document ≠ m.document) :
    EntryTable.ofDocument index s m.document = .ok [EntryTable.entryOf etag m] := by
  obtain ⟨found, hfound, hmem, hasc⟩ := EntryTable.ofDocument_eq h.table hlen
  have hsingle : ∀ e, e ∈ found ↔ e ∈ [EntryTable.entryOf etag m] := fun e => by
    rw [hmem, List.mem_singleton]
    constructor
    · rintro ⟨m', hrow, hdocument, he⟩
      rw [rows_enter] at hrow
      split at hrow
      · next hetag =>
        cases hrow
        exact hetag ▸ he
      · exact absurd hdocument (hnone _ _ hrow)
    · rintro rfl
      exact ⟨m, by rw [rows_enter]; exact if_pos rfl, rfl, rfl⟩
  have hnodup : found.Nodup := hasc.imp fun {a b} hlt e => by
    rw [e] at hlt
    exact Nat.lt_irrefl _ hlt
  rw [hfound, List.perm_singleton.1
    ((List.perm_ext_iff_of_nodup hnodup (List.nodup_singleton _)).2 hsingle)]

end Holds

end Contents

/-! ### Inside a transaction -/

namespace Update

variable {name : String} {u : Update}

/-- The etag that is given out next is in no tree of the index. -/
structure Unclaimed (name : String) (u : Update) : Prop where
  index : u.index = name
  shows : ∃ c : Contents, Shows c u ∧ ∀ etag, u.lastEtag.next? = some etag →
    c.rows etag = none ∧ ∀ hash, c.blobs hash etag = none

theorem Locked.unclaimed (h : u.Locked name) : u.Unclaimed name := by
  obtain ⟨hindex, c, hshows, hl⟩ := h
  refine ⟨hindex, c, hshows, fun etag hnext => ?_⟩
  have hrow := hshows.rows_next hl etag hnext
  refine ⟨hrow, fun hash => Option.not_isSome_iff_eq_none.1 fun hblob => ?_⟩
  obtain ⟨m, hm, -⟩ := (hl.blobs hash etag).1 hblob
  rw [hrow] at hm
  cases hm

theorem Locked.groupInStep (h : u.Locked name) (hash : GroupHash) :
    u.snapshot.GroupInStep name hash := by
  obtain ⟨rfl, c, hshows, hl⟩ := h
  exact (hshows.holds.groupInStep_iff hash).2 (hl.groupKeys hash)

variable {c : Contents} {earlier : GroupHash → Prop} {v : Update}

/-- An update that goes on shows the same contents. -/
theorem Continues.shows (h : Continues earlier u v) (hu : Shows c u) : Shows c v where
  holds := by
    rw [h.index, h.snapshot]
    exact hu.holds
  opened hash ho := by
    rw [h.index, h.snapshot]
    exact h.txn.trees _ ⟨hash, .inr ho, rfl⟩
  counter := h.lastEtag ▸ hu.counter

theorem Shows.goes_on (h : Shows c u) : Continues (fun _ => False) u u :=
  ⟨rfl, ⟨rfl, fun _ ⟨hash, ho, hn⟩ => hn ▸ h.opened hash (ho.elim id id)⟩, rfl, by simp⟩

end Update

namespace Index

variable {ix : Index} {c : Contents} {u u' : Update} {document : Document} {group : Value}
  {key : Bytes} {hash : GroupHash} {etag : Etag}

/-- A document that is mapped is entered, and trees of other indexes stay as they are. -/
theorem shows_mapDocument (h : Shows c u)
    (hfree : ∀ etag, u.lastEtag.next? = some etag → c.rows etag = none) (hix : u.index = ix.name)
    (hgroup : ix.groupOf document.data = .ok (group, key, hash))
    (hmap : (ix.mapDocument document).exec u = (.ok etag, u')) :
    u.lastEtag.next? = some etag ∧ u'.index = ix.name ∧
      u.snapshot.Confined ix.name hash u'.snapshot ∧
      ∃ blob, Shows (c.enter etag ⟨document.key, hash⟩ blob key) u' := by
  have hconfined : Works ix.name (fun txn => u.snapshot.Confined ix.name hash txn.working) u' := by
    have hmap' := hmap
    rcases ix.mapDocument_cases document with ⟨e, he⟩ | ⟨_, _, _, blob, hsame, -, hnone, hsome⟩
    · rw [he] at hmap'
      cases hmap'
    rw [hgroup] at hsame
    cases hsame
    rw [hsome u etag (ix.lastEtag_of_mapDocument hmap).1] at hmap'
    have hstep : Preserves (Works ix.name fun txn => u.snapshot.Confined ix.name hash txn.working)
        (ix.enterDocument document.key hash key blob etag) := by
      refine preserves_enterDocument (Transaction.kept_confined ix.name hash u.snapshot) ix .bucket
        (.put .groupKeys hash.encode key) ?_
      rintro _ ⟨site, k, v, rfl, -⟩
      exact .put site k v
    have hdone := hstep { u with lastEtag := etag } ⟨hix, .refl ..⟩
    rwa [hmap'] at hdone
  rcases exec_mapDocument h hfree hix document with
    ⟨e, he⟩ | ⟨-, e, _, he⟩ | ⟨_, _, _, blob, _, _, _, _, hgroup', -, hnext, he, hshows⟩ <;>
    rw [he] at hmap <;> cases hmap
  rw [hgroup] at hgroup'
  cases hgroup'
  exact ⟨hnext, hconfined.1, hconfined.2, blob, hshows⟩

theorem exec_removeDocument_of_found (hix : u.index = ix.name) {key : DocumentKey}
    {entries : List Entry} (hfound : EntryTable.ofDocument u.index u.snapshot key = .ok entries) :
    (ix.removeDocument key).exec u =
      (entries.forM (ix.removeEntry key) >>= fun _ => pure entries.length).exec u := by
  have hview := exec_view_ofDocument hix key
  rw [hfound] at hview
  rw [removeDocument, exec_bind_ok hview]

/-- A document with one entry loses it, and trees of other indexes stay as they are. -/
theorem shows_removeDocument (h : Shows c u) (hix : u.index = ix.name) {key : DocumentKey}
    {e : Entry} (hfound : EntryTable.ofDocument u.index u.snapshot key = .ok [e]) {n : Nat}
    (hremove : (ix.removeDocument key).exec u = (.ok n, u')) :
    u'.index = ix.name ∧ u.snapshot.Confined ix.name e.hash u'.snapshot ∧
      Shows (c.remove e.etag e.hash) u' := by
  obtain ⟨u₁, hexec, hshows⟩ : ∃ u₁, (ix.removeEntry key e).exec u = (.ok (), u₁) ∧
      Shows (c.remove e.etag e.hash) u₁ := by
    obtain ⟨_, _, _, hexec, hshows⟩ := exec_removeEntry h hix key e
    exact ⟨_, hexec, hshows⟩
  have hconfined := preserves_removeEntry (Transaction.kept_confined ix.name e.hash u.snapshot) ix
    .bucket (fun site _ k => .delete site k) key u ⟨hix, .refl ..⟩
  have hall : ([e].forM (ix.removeEntry key)).exec u = (.ok (), u₁) := by
    rw [exec_forM_cons, exec_bind_ok hexec]
    rfl
  rw [exec_removeDocument_of_found hix hfound, exec_bind_ok hall] at hremove
  cases hremove
  rw [hexec] at hconfined
  exact ⟨hconfined.1, hconfined.2, hshows⟩

/-- A document without entries is mapped and its key removed, both with success; the removal may be
made in an update that goes on behind the first. -/
structure Undone (ix : Index) (document : Document) (u u' : Update) : Prop where
  vacant : ix.entriesIn u.snapshot document.key = .ok []
  steps : ∃ etag u₁ earlier v n, (ix.mapDocument document).exec u = (.ok etag, u₁) ∧
    Continues earlier u₁ v ∧ (ix.removeDocument document.key).exec v = (.ok n, u')

/-- **Mapping a document and removing it again** restores the trees just when the key of its group
was recorded if and only if the bucket was not empty. -/
theorem Undone.restored_iff (h : ix.Undone document u u') (hu : u.Unclaimed ix.name)
    (hgroup : ix.groupOf document.data = .ok (group, key, hash)) :
    u.snapshot.Restored ix.name hash u'.snapshot ↔ u.snapshot.GroupInStep ix.name hash := by
  obtain ⟨hvacant, etag, u₁, _, v, n, hmap, hgoes, hremove⟩ := h
  obtain ⟨hix, c, hshows, hfree⟩ := hu
  have hholds := hshows.holds
  rw [hix] at hholds
  obtain ⟨hlen, hnone⟩ := hholds.of_ofDocument_nil hvacant
  -- what is entered is found
  obtain ⟨hnext, hix₁, hconfined₁, blob, hshows₁⟩ :=
    shows_mapDocument hshows (fun etag hnext => (hfree etag hnext).1) hix hgroup hmap
  have hshows₂ := hgoes.shows hshows₁
  have hix₂ := hgoes.index.trans hix₁
  have hfound := hshows₂.holds.ofDocument_of_enter hlen hnone
  obtain ⟨hix₃, hconfined₂, hshows₃⟩ := shows_removeDocument hshows₂ hix₂ hfound hremove
  -- the bucket has got its tree
  rw [hgoes.snapshot] at hconfined₂
  have hbucket := hconfined₂.bucket (hix₁ ▸ hshows₁.holds.hasTree_bucket_of_enter)
  have hholds₃ : ((c.enter etag ⟨document.key, hash⟩ blob key).remove etag hash).Holds ix.name
      u'.snapshot := hix₃ ▸ hshows₃.holds
  obtain ⟨hrow, hblob⟩ := hfree etag hnext
  exact hholds.restored_iff ⟨document.key, hash⟩ hholds₃ (hconfined₁.trans hconfined₂) hbucket hrow
    (hblob hash) (hshows.lt_next hnext)

/-- In lockstep, all of it is undone. -/
theorem Undone.restored (h : ix.Undone document u u') (hu : u.Locked ix.name)
    (hgroup : ix.groupOf document.data = .ok (group, key, hash)) :
    u.snapshot.Restored ix.name hash u'.snapshot :=
  (h.restored_iff hu.unclaimed hgroup).2 (hu.groupInStep hash)

theorem perform_congr {ix' : Index} (h : SameHandle ix ix') (c : Call) :
    ix'.perform c = ix.perform c := by
  rw [h.exists_eq]
  cases c <;> rfl

/-- The calls that map a document by hand, and those of a put. -/
def mappings (document : Document) : List (List Call) :=
  [[.map document], (Change.put document).calls]

section

variable (ix : Index) (u : Update) (document : Document)

/-- A document without entries has nothing to be removed. -/
theorem perform_remove_of_vacant (hix : u.index = ix.name)
    (hvacant : ix.entriesIn u.snapshot document.key = .ok []) :
    (ix.perform (.remove document.key)).exec u = (.ok [], u) := by
  rw [perform_remove_eq_ok]
  have hfound : EntryTable.ofDocument u.index u.snapshot document.key = .ok [] := hix ▸ hvacant
  exact ⟨0, exec_removeDocument_of_found hix hfound, rfl⟩

/-- Of a document without entries these come to the same. -/
theorem calls_mappings (hix : u.index = ix.name)
    (hvacant : ix.entriesIn u.snapshot document.key = .ok []) {first : List Call}
    (hfirst : first ∈ mappings document) (rest : List Call) :
    ix.calls u (first ++ rest) = ix.calls u (.map document :: rest) ∧
      (ix.Succeed u (first ++ rest) ↔ ix.Succeed u (.map document :: rest)) := by
  rcases List.mem_pair.1 hfirst with rfl | rfl
  · exact ⟨rfl, Iff.rfl⟩
  · have hremove := ix.perform_remove_of_vacant u document hix hvacant
    have hcall : ix.call u (.remove document.key) = u := congrArg Prod.snd hremove
    refine ⟨?_, ?_⟩
    · show ix.calls (ix.call u (.remove document.key)) (.map document :: rest) = _
      rw [hcall]
    · show (_ ∧ ix.Succeed (ix.call u (.remove document.key)) (.map document :: rest)) ↔ _
      rw [hcall]
      exact and_iff_right ⟨_, _, hremove⟩

/-- A document is mapped by a call, and its key removed by one that goes on behind it. -/
theorem undone_of_succeed (hvacant : ix.entriesIn u.snapshot document.key = .ok [])
    (hmap : ix.Succeed u [.map document]) {earlier : GroupHash → Prop} {v : Update}
    (hgoes : Continues earlier (ix.calls u [.map document]) v)
    (hremove : ix.Succeed v [.remove document.key]) :
    ix.Undone document u (ix.calls v [.remove document.key]) := by
  obtain ⟨⟨_, u₁, hmap⟩, -⟩ := hmap
  obtain ⟨⟨_, v₁, hremove⟩, -⟩ := hremove
  obtain rfl : ix.calls u [.map document] = u₁ := congrArg Prod.snd hmap
  obtain rfl : ix.calls v [.remove document.key] = v₁ := congrArg Prod.snd hremove
  obtain ⟨etag, hmap, -⟩ := ix.perform_map_eq_ok.1 hmap
  obtain ⟨n, hremove, -⟩ := ix.perform_remove_eq_ok.1 hremove
  exact ⟨hvacant, etag, _, earlier, v, n, hmap, hgoes, hremove⟩

end

end Index

/-! ### Committed transactions -/

namespace Live

variable {β σ : Type} [Backend β]

/-- A transaction in which these calls were made, all with success, was committed: one driven by
hand, or that of a batch. -/
inductive Carried (live : Live β σ) : List Index.Call → Live β σ → Prop where
  | drive {list : List Index.Call} {sync : Bool} (succeed : live.index.Succeed live.start list)
      (commit : ((Environment.commit (live.index.calls live.start list).txn sync).exec
        live.env).1 = .ok ()) : Carried live list (live.drive list (.commit sync))
  | batch {sink : Sink σ} {changes : List Change} {result : BatchResult} {live' : Live β σ}
      (run : (runBatch sink changes).exec live = (.ok result, live')) :
      Carried live (changes.flatMap Change.calls) live'

/-- What a committed transaction leaves: the next one begins on what it showed. -/
structure Left (live : Live β σ) (list : List Index.Call) (live' : Live β σ) : Prop
    extends Index.SameHandle live.index live'.index where
  succeed : live.index.Succeed live.start list
  start : live'.start = .on live.index.name (.on (live.index.calls live.start list).snapshot)
    (live.index.calls live.start list).lastEtag

variable {live live' : Live β σ} {list : List Index.Call}

theorem Carried.left (h : Carried live list live') : Left live list live' := by
  cases h with
  | @drive _ sync succeed commit =>
      have hindex := live.index_drive list (.commit sync)
      have hcommitted := (Environment.committed_of_commit (live.faithful_calls list) sync).1 commit
      rw [← env_drive_commit] at hcommitted
      refine ⟨⟨by rw [hindex], by rw [hindex]⟩, succeed, ?_⟩
      rw [start, hindex]
      exact congrArg (fun s => Update.on live.index.name (.on s) _) hcommitted
  | @batch sink changes result _ run =>
      rw [runBatch, exec_bind_eq_ok] at run
      obtain ⟨⟨done, ds⟩, live₁, hcommit, hdeliver⟩ := run
      obtain ⟨prepared, update, hready, hafter, hok, -⟩ := ready_of_commitBatch hcommit
      obtain ⟨-, hall, hsucceed, -⟩ := calls_of_commitBatch hcommit
      have hupdate := (live.stage_calls changes).1
      rw [hready.stage, hall] at hupdate
      obtain rfl : update = _ := hupdate
      have hcommitted := committed_of_ready hready hafter hok
      -- the deliveries change the receiver only
      obtain ⟨answer, state, hsent, -⟩ := exec_deliverAll sink ds live₁
      rw [exec_bind, hsent] at hdeliver
      cases answer with
      | error e => cases hdeliver
      | ok _ =>
          cases hdeliver
          refine ⟨⟨hafter.definition, hafter.config⟩, hsucceed, ?_⟩
          show Update.on live₁.index.definition.name (.on live₁.committed) live₁.index.lastEtag = _
          rw [hafter.definition, hcommitted, hafter.lastEtag]
          rfl

omit [Backend β] in
theorem Left.committed (h : Left live list live') :
    live'.committed = (live.index.calls live.start list).snapshot :=
  congrArg Update.snapshot h.start

/-! ### Mapped and removed again -/

/-- Mapping a document without entries and removing it again restores the trees. -/
structure Reverts (name : String) (hash : GroupHash) (live : Live β σ) (document : Document) :
    Prop where
  /-- The key is recorded just when the bucket is not empty, so an empty one has none again. -/
  inStep : live.committed.GroupInStep name hash
  /-- Inside a transaction, behind any calls. -/
  within : ∀ list : List Index.Call, (∀ c ∈ list, c.Short) → ∀ u',
    live.index.Undone document (live.index.calls live.start list) u' →
      (live.index.calls live.start list).snapshot.Restored name hash u'.snapshot
  /-- In one transaction that is committed. -/
  once : live.index.entriesIn live.committed document.key = .ok [] →
    ∀ first ∈ Index.mappings document, ∀ live',
      Carried live (first ++ [.remove document.key]) live' →
        live.committed.Restored name hash live'.committed
  /-- In two, one after the other. -/
  twice : live.index.entriesIn live.committed document.key = .ok [] →
    ∀ first ∈ Index.mappings document, ∀ live₁ live₂, Carried live first live₁ →
      Carried live₁ [.remove document.key] live₂ →
        live.committed.Restored name hash live₂.committed
  /-- Results that were in step with the trees stay as they were, in one batch or in two. -/
  results : live.index.entriesIn live.committed document.key = .ok [] →
    live.index.config.reduceAfterBatch = true → ∀ store : ResultStore,
      Reduced (ofHost live.toHost live.index store) → ∀ (parts : List (List Change)) result live',
        parts.flatten = [.put document, .delete document.key] →
        (runBatches ResultStore.sink parts).exec (ofHost live.toHost live.index store) =
          (.ok result, live') →
          live.committed.Restored name hash live'.committed ∧ live'.sink.results = store.results

section

variable {name : String} {document : Document} {group : Value} {key : Bytes} {hash : GroupHash}

omit [Backend β] in
/-- A document without entries can be mapped in lockstep. -/
theorem Locked.start_map (h : live.Locked name)
    (hvacant : live.index.entriesIn live.committed document.key = .ok []) :
    (live.index.calls live.start [.map document]).Locked live.index.name := by
  obtain ⟨-, c, hholds, -⟩ := h.start
  exact h.calls (List.forall_mem_singleton.2 (hholds.holds.of_ofDocument_nil hvacant).1)

omit [Backend β] in
theorem Locked.restored_of_succeed (h : live.Locked name)
    (hgroup : live.index.groupOf document.data = .ok (group, key, hash))
    (hvacant : live.index.entriesIn live.committed document.key = .ok [])
    {first : List Index.Call} (hfirst : first ∈ Index.mappings document)
    (hsucceed : live.index.Succeed live.start (first ++ [.remove document.key])) :
    live.committed.Restored name hash
      (live.index.calls live.start (first ++ [.remove document.key])).snapshot := by
  obtain ⟨hcalls, hiff⟩ := live.index.calls_mappings live.start document rfl hvacant hfirst
    [.remove document.key]
  obtain ⟨hmap, hremove⟩ := (live.index.succeed_append live.start [.map document] _).1
    (hiff.1 hsucceed)
  obtain ⟨-, c, hshows, -⟩ := h.start_map hvacant
  have hundone := live.index.undone_of_succeed live.start document hvacant hmap hshows.goes_on
    hremove
  rw [hcalls, ← h.index]
  exact hundone.restored h.start hgroup

/-- In batches it makes no difference how they are cut, and results in step with the trees stay as
they were. -/
theorem Locked.results_of_runBatches {live live' : Live β ResultStore} (h : live.Locked name)
    (hgroup : live.index.groupOf document.data = .ok (group, key, hash))
    (hvacant : live.index.entriesIn live.committed document.key = .ok [])
    (hon : live.index.config.reduceAfterBatch = true) (hreduced : Reduced live)
    {parts : List (List Change)} (hparts : parts.flatten = [.put document, .delete document.key])
    {result : BatchResult}
    (hrun : (runBatches ResultStore.sink parts).exec live = (.ok result, live')) :
    live.committed.Restored name hash live'.committed ∧
      live'.sink.results = live.sink.results := by
  obtain ⟨done, u', hdone, -, hcut⟩ := (Cut.refl live live.events).runBatches hrun
  have hmade := live.index.made_applyChanges live.start parts.flatten
  rw [hdone, hparts] at hmade
  obtain ⟨hcalls, -, hsucceed⟩ := hmade
  have hrestored := h.restored_of_succeed hgroup hvacant
    (List.mem_cons_of_mem _ List.mem_cons_self) hsucceed
  have hrestored : live.committed.Restored name hash u'.snapshot := hcalls ▸ hrestored
  refine ⟨hcut.committed ▸ hrestored, OrderedMap.ext_get? fun k => ?_⟩
  -- a touched group has its output, which is what it was before
  obtain ⟨htouched, huntouched⟩ := hcut.results hon k
  by_cases hk : u'.touched.contains k = true
  · have houtput := htouched hk
    rw [← h.index] at hrestored
    rw [hrestored.reduceIn_eq, hreduced k] at houtput
    exact (Except.ok.inj houtput).symm
  · exact huntouched hk

/-- **Every run** of an index leaves trees in which mapping and removing is undone. -/
theorem Locked.reverts (h : live.Locked name)
    (hgroup : live.index.groupOf document.data = .ok (group, key, hash)) :
    Reverts name hash live document where
  inStep := h.index ▸ h.start.groupInStep hash
  within list hshort u' hundone := by
    rw [← h.index]
    exact hundone.restored (h.calls hshort) hgroup
  once hvacant first hfirst live' hcarried := by
    rw [hcarried.left.committed]
    exact h.restored_of_succeed hgroup hvacant hfirst hcarried.left.succeed
  twice hvacant first hfirst live₁ live₂ hcarried hcarried' := by
    have hleft := hcarried.left
    obtain ⟨hcalls, hiff⟩ := live.index.calls_mappings live.start document rfl hvacant hfirst []
    have hstart := hleft.start
    rw [List.append_nil] at hcalls hiff
    rw [hcalls] at hstart
    -- the second transaction goes on behind the first
    obtain ⟨hindex, c, hshows, -⟩ := h.start_map hvacant
    have hgoes := hshows.goes_on.restart
    rw [hindex, ← hstart] at hgoes
    have hperform := Index.perform_congr hleft.toSameHandle (.remove document.key)
    have hsame : live₁.index.calls live₁.start [.remove document.key] =
        live.index.calls live₁.start [.remove document.key] :=
      congrArg (fun step => (Action.exec step live₁.start).2) hperform
    obtain ⟨⟨etags, u', hexec⟩, -⟩ := hcarried'.left.succeed
    rw [hperform] at hexec
    have hundone := live.index.undone_of_succeed live.start document hvacant
      (hiff.1 hleft.succeed) hgoes ⟨⟨etags, u', hexec⟩, trivial⟩
    rw [hcarried'.left.committed, hsame, ← h.index]
    exact hundone.restored h.start hgroup
  results hvacant hon store hreduced parts result live' hparts hrun := by
    have hstored : (ofHost live.toHost live.index store).Locked name := ⟨h.index, h.holds⟩
    exact hstored.results_of_runBatches hgroup hvacant hon hreduced hparts hrun

end

/-- **Mapping a document and removing it again** restores the trees, but for the last etag and a
tree for the bucket, at every point of a run: in one transaction or in two, by hand or in batches,
and results that were in step stay as they were.  In any trees where the next etag is unclaimed it
does so just when the key of the group was recorded if and only if its bucket was not empty. -/
theorem mapped_then_removed {d : Definition} {config : Config} {host host' : Host β} {ix : Index}
    (hvacant : host.env.committed.Vacant d.name)
    (hcreate : (Index.create d config).exec host = (.ok ix, host')) (state : σ) {live : Live β σ}
    (hrun : Relation.ReflTransGen Turn (ofHost host' ix state) live) {document : Document}
    {group : Value} {key : Bytes} {hash : GroupHash}
    (hgroup : live.index.groupOf document.data = .ok (group, key, hash)) :
    Reverts d.name hash live document ∧
    ∀ u u' : Update, u.Unclaimed d.name → live.index.Undone document u u' →
      (u.snapshot.Restored d.name hash u'.snapshot ↔ u.snapshot.GroupInStep d.name hash) := by
  have hlive := (locked_of_create hvacant hcreate state).turns hrun
  refine ⟨hlive.reverts hgroup, fun u u' hu hundone => ?_⟩
  rw [← hlive.index] at hu ⊢
  exact hundone.restored_iff hu hgroup

end Live

/-- What a new index carries out: a document is put, and deleted in a batch of its own. -/
theorem Index.carriesOut_put_delete : carriesOut ⟨minimal, {}, .zero, {}⟩ minimalTrees .zero
    [[.put ⟨[1], .null⟩], [.delete [1]]] = true := by
  decide +kernel

namespace Live

theorem mapped_then_removed_of_batches :
    ∃ ix host', (Index.create Index.minimal {}).exec ⟨.fresh (Memory.mk []), #[]⟩ =
        (.ok ix, host') ∧
      let live := ofHost host' ix ResultStore.empty
      ∃ hash result live',
        (runBatches ResultStore.sink [[.put ⟨[1], .null⟩], [.delete [1]]]).exec live =
          (.ok result, live') ∧
        live.committed.Restored "i" hash live'.committed ∧
          live'.sink.results = live.sink.results := by
  obtain ⟨host', hcreate⟩ := Index.exec_create_minimal {}
  refine ⟨_, host', hcreate, ?_⟩
  have hvacant := Snapshot.vacant_empty Index.minimal.name
  obtain ⟨⟨group, key, hash⟩, hgroup⟩ := exists_of_isOk
    (show ((⟨Index.minimal, {}, .zero, {}⟩ : Index).groupOf .null).isOk = true by decide +kernel)
  obtain ⟨hreverts, -⟩ := @mapped_then_removed _ _ _ _ _ _ _ _ hvacant hcreate ResultStore.empty _
    .refl ⟨[1], .null⟩ _ _ _ hgroup
  have hcommitted : (ofHost host' (⟨Index.minimal, {}, .zero, {}⟩ : Index)
      ResultStore.empty).committed = Index.minimalTrees :=
    Index.committed_of_create_minimal hcreate
  obtain ⟨result, live', hrun⟩ := exists_runBatches_of_create ResultStore.willing_sink trivial
    hcreate hcommitted Index.carriesOut_put_delete .empty
  have hnone : (⟨Index.minimal, {}, .zero, {}⟩ : Index).entriesIn Index.minimalTrees [1] = .ok [] :=
    by decide +kernel
  exact ⟨hash, result, live', hrun, hreverts.results (hcommitted ▸ hnone) rfl _
    (reduced_of_create hvacant hcreate) _ _ _ rfl hrun⟩

end Live

end Rollup
