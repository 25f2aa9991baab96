import Rollup.Proofs.Action
import Rollup.Proofs.Index.Contents

/-!
# Updates — the steps of a batch, seen on the contents

An update *shows* contents when its transaction's snapshot holds them (`Shows`).  Then every step of
an update is a change of the contents that can be written down:

* mapping a document enters it under the next etag (`exec_mapDocument`);
* taking an entry back removes it (`exec_removeEntry`), and removing a document removes all its
  entries (`exec_removeDocument`).

What a step writes down in its books about the groups goes with it.
-/

namespace Rollup

open Rollup.Action Function

namespace Update

/-! ### What an update shows -/

/-- The snapshot of the update holds these contents, and its books agree with it. -/
structure Shows (c : Contents) (u : Update) : Prop where
  holds : c.Holds u.index u.snapshot
  opened : ∀ hash, u.opened.contains hash = true →
    u.snapshot.hasTree (bucketTree u.index hash) = true
  counter : c.last.toNat ≤ u.lastEtag.toNat

variable {c c' : Contents} {u u' : Update}

/-- A new state of the transaction. -/
theorem Shows.withTxn (h : Shows c u) {txn : Transaction}
    (hholds : c'.Holds u.index txn.working)
    (htree : ∀ n, u.snapshot.hasTree n = true → txn.working.hasTree n = true)
    (hcounter : c'.last.toNat ≤ u.lastEtag.toNat) : Shows c' { u with txn } where
  holds := hholds
  opened hash ho := htree _ (h.opened hash ho)
  counter := hcounter

theorem exec_inTxn {α : Type} {step : Transaction.Step α} {a : α} {txn : Transaction}
    (h : step.exec u.txn = (.ok a, txn)) : (inTxn step).exec u = (.ok a, { u with txn }) := by
  show ((step.exec u.txn).1.mapError _, { u with txn := (step.exec u.txn).2 }) = _
  rw [h]
  rfl

theorem exec_inTxn_error {α : Type} {step : Transaction.Step α} {e : StorageError}
    {txn : Transaction} (h : step.exec u.txn = (.error e, txn)) :
    (inTxn step).exec u = (.error (.storage e), { u with txn }) := by
  show ((step.exec u.txn).1.mapError _, { u with txn := (step.exec u.txn).2 }) = _
  rw [h]
  rfl

/-- A change of one cell outside the table, and its effect. -/
theorem exec_put (h : Shows c u) (c' : Contents) {site : Site} (hsite : ¬ site.InTable)
    (htree : u.snapshot.hasTree (site.tree u.index) = true) {key value : Bytes}
    (hrows : c'.rows = c.rows) (hcounter : c'.last.toNat ≤ u.lastEtag.toNat)
    (hc : ∀ b k, c'.cell b k = if b = site ∧ k = key then some value else c.cell b k) :
    ∃ txn, (inTxn (Transaction.put (site.tree u.index) key value)).exec u =
        (.ok (), { u with txn }) ∧ Shows c' { u with txn } := by
  refine ⟨u.txn.putAt (site.tree u.index) key value, exec_inTxn ?_, h.withTxn ?_ ?_ hcounter⟩
  · rw [Transaction.exec_put]
    exact if_pos htree
  · exact h.holds.put hsite htree hrows hc
  · exact fun n hn => by simpa [snapshot] using hn

theorem exec_delete (h : Shows c u) (c' : Contents) {site : Site} (hsite : ¬ site.InTable)
    (htree : u.snapshot.hasTree (site.tree u.index) = true) {key : Bytes}
    (hrows : c'.rows = c.rows) (hcounter : c'.last.toNat ≤ u.lastEtag.toNat)
    (hc : ∀ b k, c'.cell b k = if b = site ∧ k = key then none else c.cell b k) :
    ∃ txn, (inTxn (Transaction.delete (site.tree u.index) key)).exec u =
        (.ok (c.cell site key).isSome, { u with txn }) ∧ Shows c' { u with txn } := by
  refine ⟨u.txn.removeAt (site.tree u.index) key, exec_inTxn ?_, h.withTxn ?_ ?_ hcounter⟩
  · rw [Transaction.exec_delete, ← h.holds.cell site hsite]
    exact if_pos htree
  · rw [Transaction.working_removeAt]
    exact h.holds.remove hsite hrows hc
  · exact fun n hn => by simpa [snapshot] using hn

/-! ### Buckets -/

/-- Asking for the bucket of a group adds its tree the first time. -/
theorem exec_bucket_eq (u : Update) (hash : GroupHash) : (bucket hash).exec u =
    (.ok ⟨u.index, hash⟩, if u.opened.contains hash then u else
      { u with txn := u.txn.openedAt (bucketTree u.index hash)
               opened := u.opened.insert hash () }) := by
  rw [bucket, exec_bind_ok (exec_get u)]
  cases u.opened.contains hash with
  | true => rfl
  | false =>
      have hcreate : (Bucket.create ⟨u.index, hash⟩).exec u.txn =
          (.ok (), u.txn.openedAt (bucketTree u.index hash)) := by
        rw [Bucket.create, exec_bind_ok (Transaction.exec_createTree _ _)]
        rfl
      show (inTxn (Bucket.create ⟨u.index, hash⟩) >>= fun _ => _).exec u = _
      rw [exec_bind_ok (exec_inTxn hcreate)]
      rfl

/-- The update after the bucket of a group was opened. -/
theorem exec_bucket (h : Shows c u) (hash : GroupHash) :
    ∃ txn opened, (bucket hash).exec u =
        (.ok ⟨u.index, hash⟩, { u with txn, opened }) ∧ Shows c { u with txn, opened } ∧
      txn.working.hasTree (bucketTree u.index hash) = true := by
  have hexec := exec_bucket_eq u hash
  cases ho : u.opened.contains hash with
  | true =>
      rw [ho, if_pos rfl] at hexec
      exact ⟨u.txn, u.opened, hexec, h, h.opened hash ho⟩
  | false =>
      rw [ho, if_neg Bool.false_ne_true] at hexec
      refine
        ⟨u.txn.openedAt (bucketTree u.index hash), u.opened.insert hash (), hexec, ⟨?_, ?_, ?_⟩, ?_⟩
      · show c.Holds u.index (u.txn.openedAt _).working
        rw [Transaction.working_openedAt]
        exact h.holds.addTree _
      · intro hash' ho'
        show (u.txn.openedAt _).working.hasTree _ = true
        rw [OrderedMap.contains_eq_isSome, OrderedMap.get?_insert] at ho'
        rw [Transaction.working_openedAt, Snapshot.hasTree_addTree, Bool.or_eq_true,
          decide_eq_true_eq]
        split at ho'
        · next e => exact .inl (e ▸ rfl)
        · exact .inr (h.opened hash' ho')
      · exact h.counter
      · simp

/-- **Putting a blob** into the bucket of a group. -/
theorem exec_putMapped (h : Shows c u) (hash : GroupHash) (etag : Etag) (blob : Bytes) :
    ∃ txn opened, (putMapped hash etag blob).exec u =
        (.ok (), { u with txn, opened, touched := u.touched.insert hash () }) ∧
      Shows (c.setBlob hash etag (some blob))
        { u with txn, opened, touched := u.touched.insert hash () } := by
  obtain ⟨txn, opened, hbucket, h₁, htree⟩ := exec_bucket h hash
  rw [← Site.tree_bucket] at htree
  obtain ⟨txn', hput, h₂⟩ := exec_put h₁ (c.setBlob hash etag (some blob))
    (Site.not_inTable_bucket hash) htree rfl h₁.counter (c.cell_setBlob hash etag (some blob))
  refine ⟨txn', opened, ?_, ⟨h₂.holds, h₂.opened, h₂.counter⟩⟩
  rw [putMapped, exec_bind_ok hbucket]
  show (inTxn (Transaction.put (bucketTree u.index hash) etag.encode blob) >>=
    fun _ => _).exec _ = _
  rw [← Site.tree_bucket, exec_bind_ok hput]
  rfl

/-- **Taking a blob** out of the bucket of a group. -/
theorem exec_deleteMapped (h : Shows c u) (hash : GroupHash) (etag : Etag) :
    ∃ txn opened, (deleteMapped hash etag).exec u = (.ok (c.blobs hash etag).isSome,
        { u with txn, opened, touched := u.touched.insert hash () }) ∧
      Shows (c.setBlob hash etag none)
        { u with txn, opened, touched := u.touched.insert hash () } := by
  obtain ⟨txn, opened, hbucket, h₁, htree⟩ := exec_bucket h hash
  rw [← Site.tree_bucket] at htree
  obtain ⟨txn', hdelete, h₂⟩ := exec_delete h₁ (c.setBlob hash etag none)
    (Site.not_inTable_bucket hash) htree rfl h₁.counter (c.cell_setBlob hash etag none)
  refine ⟨txn', opened, ?_, ⟨h₂.holds, h₂.opened, h₂.counter⟩⟩
  -- what the deletion finds is the blob
  have hcell : c.cell (.bucket hash) etag.encode = c.blobs hash etag :=
    cellsOf_encode Etag.decode_eq_ok_iff etag
  rw [hcell] at hdelete
  rw [deleteMapped, exec_bind_ok hbucket]
  show (inTxn (Transaction.delete (bucketTree u.index hash) etag.encode) >>= fun _ => _).exec _ = _
  rw [← Site.tree_bucket, exec_bind_ok hdelete]
  rfl

/-- Whether a bucket is empty is seen on the contents. -/
theorem exec_bucketIsEmpty (h : Shows c u) (hash : GroupHash) :
    ∃ empty txn opened, (bucketIsEmpty hash).exec u = (.ok empty, { u with txn, opened }) ∧
      (empty = true ↔ ¬ c.Occupied hash) ∧ Shows c { u with txn, opened } := by
  obtain ⟨txn, opened, hbucket, h₁, -⟩ := exec_bucket h hash
  refine ⟨txn.working.treeSize (bucketTree u.index hash) == 0, txn, opened, ?_, ?_, h₁⟩
  · rw [bucketIsEmpty, exec_bind_ok hbucket, exec_bind_ok (exec_get _), exec_pure]
    rfl
  · have hcells : ∀ k, txn.working.cell (bucketTree u.index hash) k =
        cellsOf Etag.decode (c.blobs hash) k := h₁.holds.bucket_eq hash
    simp only [beq_iff_eq, Snapshot.treeSize_eq_zero_iff, hcells,
      cellsOf_eq_none_iff Etag.decode_eq_ok_iff, Contents.Occupied, not_exists, Bool.not_eq_true,
      Option.isSome_eq_false_iff, Option.isNone_iff_eq_none]

/-- A change of the map entry table. -/
theorem Shows.inTable (h : Shows c u) {txn : Transaction} {rows : Mappings}
    (helse : (EntryTable.schema u.index).Elsewhere u.snapshot txn.working)
    (hrows : EntryTable.Stores u.index rows txn.working) :
    Shows { c with rows } { u with txn } :=
  h.withTxn (h.holds.elsewhere helse hrows) (fun n hn => by rw [helse.hasTree, hn]) h.counter

theorem exec_deleteRow (h : Shows c u) (etag : Etag) :
    ∃ present txn, (inTxn (EntryTable.delete u.index etag)).exec u = (.ok present, { u with txn }) ∧
      Shows (c.setRow etag none) { u with txn } := by
  obtain ⟨txn, hdelete, hstores, helse⟩ := EntryTable.exec_delete h.holds.table etag
  exact ⟨_, txn, exec_inTxn hdelete, h.inTable helse hstores⟩

/-! ### Etags -/

/-- The next etag is past all that the trees have seen. -/
theorem Shows.lt_next (h : Shows c u) {etag : Etag} (hnext : u.lastEtag.next? = some etag) :
    c.last.toNat < etag.toNat := by
  have := h.counter
  rw [Etag.toNat_of_next? hnext]
  omega

theorem Shows.rows_next (h : Shows c u) (hl : c.Lockstep) (etag : Etag)
    (hnext : u.lastEtag.next? = some etag) : c.rows etag = none := hl.rows_of_lt (h.lt_next hnext)

theorem exec_nextEtag_of_none (h : u.lastEtag.next? = none) :
    nextEtag.exec u = (.error .etagsExhausted, u) := by
  rw [nextEtag, exec_bind_ok (exec_get u), h]
  rfl

theorem exec_nextEtag_of_some {etag : Etag} (h : u.lastEtag.next? = some etag) :
    nextEtag.exec u = (.ok etag, { u with lastEtag := etag }) := by
  rw [nextEtag, exec_bind_ok (exec_get u), h]
  rfl

end Update

namespace Index

open Update

variable {ix : Index} {c : Contents} {u : Update}

/-! ### Mapping a document -/

/-- Recording the key of a group, as the contents see it. -/
theorem exec_recordGroupKey (h : Shows c u) (hix : u.index = ix.name) (hash : GroupHash)
    (key : Bytes) :
    ∃ txn, (ix.recordGroupKey hash key).exec u = (.ok (), { u with txn }) ∧
      Shows (c.setGroupKey hash (some ((c.groupKeys hash).getD key))) { u with txn } := by
  have hview : (Update.view fun s =>
      (s.lookup (groupKeyTree ix.name) hash.encode).mapError .storage).exec u =
        (.ok (c.groupKeys hash), u) := by
    rw [Update.view, exec_bind_ok (exec_get u), exec_lift, ← hix, Snapshot.lookup_eq,
      ← h.holds.groupKey_eq]
    exact congrArg (fun r => (r, u)) (congrArg (Except.mapError IndexError.storage)
      (if_pos h.holds.groupKeys))
  rw [recordGroupKey, exec_bind_ok hview]
  cases hkey : c.groupKeys hash with
  | none =>
      rw [← hix]
      exact exec_put h _ Site.not_inTable_groupKeys h.holds.groupKeys rfl h.counter
        (c.cell_setGroupKey hash (some key))
  | some recorded =>
      refine ⟨u.txn, rfl, ?_⟩
      have hsame : c.setGroupKey hash (some recorded) = c := by
        rw [Contents.setGroupKey, update_eq_self_iff.2 hkey.symm]
      show Shows (c.setGroupKey hash (some recorded)) u
      rwa [hsame]

theorem groupOf_eq_ok_iff {ix : Index} {data group : Value} {key : Bytes} {hash : GroupHash} :
    ix.groupOf data = .ok (group, key, hash) ↔
      group = ix.definition.groupKey data ∧ group.encode = .ok key ∧ hash = ix.config.hash key := by
  rw [groupOf, bind_eq_ok_iff]
  simp only [mapError_eq_ok_iff]
  constructor
  · rintro ⟨key', hkey, h⟩
    cases h
    exact ⟨rfl, hkey, rfl⟩
  · rintro ⟨rfl, hkey, rfl⟩
    exact ⟨key, hkey, rfl⟩

/-- What mapping a document writes under the etag that it has drawn. -/
def enterDocument (ix : Index) (document : DocumentKey) (hash : GroupHash) (key blob : Bytes)
    (etag : Etag) : Update.Step Etag := do
  putMapped hash etag blob
  inTxn (Transaction.put (metaTree ix.name) lastEtagKey etag.encode)
  ix.recordGroupKey hash key
  inTxn (EntryTable.insert ix.name ⟨etag, document, hash⟩)
  report (.documentMapped ix.name ⟨etag, document, hash⟩)
  return etag

/-- Mapping a document stops before anything has happened, or it draws the next etag and goes on
from there. -/
theorem mapDocument_cases (ix : Index) (document : Document) :
    (∃ e, ∀ u, (ix.mapDocument document).exec u = (.error e, u)) ∨
    ∃ group key hash blob, ix.groupOf document.data = .ok (group, key, hash) ∧
      (ix.definition.mapped document.data).encode = .ok blob ∧
      (∀ u, u.lastEtag.next? = none →
        (ix.mapDocument document).exec u = (.error .etagsExhausted, u)) ∧
      ∀ u etag, u.lastEtag.next? = some etag → (ix.mapDocument document).exec u =
        (ix.enterDocument document.key hash key blob etag).exec { u with lastEtag := etag } := by
  cases hgroup : ix.groupOf document.data with
  | error e => exact .inl ⟨e, fun u => by rw [mapDocument, hgroup]; rfl⟩
  | ok g =>
  obtain ⟨group, key, hash⟩ := g
  cases hblob : (ix.definition.mapped document.data).encode with
  | error e => exact .inl ⟨.encoding e, fun u => by rw [mapDocument, hgroup, hblob]; rfl⟩
  | ok blob =>
  have hfront : ix.mapDocument document =
      nextEtag >>= ix.enterDocument document.key hash key blob := by
    rw [mapDocument, hgroup, hblob]
    rfl
  refine .inr ⟨group, key, hash, blob, rfl, rfl, fun u hu => ?_, fun u etag hu => ?_⟩ <;>
    rw [hfront]
  · rw [exec_bind_error (exec_nextEtag_of_none hu)]
  · rw [exec_bind_ok (exec_nextEtag_of_some hu)]

/-- **Mapping a document** enters it under the next etag; a failure before that changes nothing, and
one behind it comes from a key that is too long for the table. -/
theorem exec_mapDocument (h : Shows c u)
    (hfree : ∀ etag, u.lastEtag.next? = some etag → c.rows etag = none) (hix : u.index = ix.name)
    (document : Document) :
    (∃ e, (ix.mapDocument document).exec u = (.error e, u)) ∨
    (¬ document.key.length < Bytes.capacity 4 ∧
      ∃ e u', (ix.mapDocument document).exec u = (.error e, u')) ∨
    ∃ group key hash blob etag txn opened events,
      ix.groupOf document.data = .ok (group, key, hash) ∧
      (ix.definition.mapped document.data).encode = .ok blob ∧
      u.lastEtag.next? = some etag ∧
      (ix.mapDocument document).exec u = (.ok etag,
        { u with txn, opened, events, lastEtag := etag, touched := u.touched.insert hash () }) ∧
      Shows (c.enter etag ⟨document.key, hash⟩ blob key)
        { u with txn, opened, events, lastEtag := etag, touched := u.touched.insert hash () } := by
  rcases ix.mapDocument_cases document with
    ⟨e, h⟩ | ⟨group, key, hash, blob, hgroup, hblob, hnone, hsome⟩
  · exact .inl ⟨e, h u⟩
  cases hetag : u.lastEtag.next? with
  | none => exact .inl ⟨_, hnone u hetag⟩
  | some etag =>
  have hfront := hsome u etag hetag
  rw [enterDocument, ← hix] at hfront
  have hlt := h.lt_next hetag
  have h₁ : Shows c { u with lastEtag := etag } := ⟨h.holds, h.opened, Nat.le_of_lt hlt⟩
  -- the blob, the last etag and the group key
  obtain ⟨txn₂, opened, hput, h₂⟩ := exec_putMapped h₁ hash etag blob
  obtain ⟨txn₃, hlast, h₃⟩ := Update.exec_put h₂ ((c.setBlob hash etag (some blob)).setLast etag)
    Site.not_inTable_settings h₂.holds.settings rfl (Nat.le_refl _) (Contents.cell_setLast _ etag)
  obtain ⟨txn₄, hkey, h₄⟩ := exec_recordGroupKey h₃ hix hash key
  rw [Site.tree_settings] at hlast
  rw [exec_bind_ok hput, exec_bind_ok hlast, exec_bind_ok hkey] at hfront
  by_cases hlen : document.key.length < Bytes.capacity 4
  · obtain ⟨txn₅, hinsert, hstores, helse⟩ := EntryTable.exec_insert h₄.holds.table
      (hfree etag hetag) (m := ⟨document.key, hash⟩) hlen
    have hinsert : (EntryTable.insert u.index ⟨etag, document.key, hash⟩).exec txn₄ =
        (.ok (), txn₅) := hinsert
    rw [exec_bind_ok (exec_inTxn hinsert)] at hfront
    have h₅ := h₄.inTable helse hstores
    exact .inr (.inr ⟨group, key, hash, blob, etag, txn₅, opened, _, hgroup, hblob, rfl, hfront,
      ⟨h₅.holds, h₅.opened, h₅.counter⟩⟩)
  · obtain ⟨e, hinsert⟩ := EntryTable.exec_insert_of_long h₄.holds.table
      (e := ⟨etag, document.key, hash⟩) hlen
    have hinsert : (EntryTable.insert u.index ⟨etag, document.key, hash⟩).exec txn₄ =
        (.error e, txn₄) := hinsert
    rw [exec_bind_error (exec_inTxn_error hinsert)] at hfront
    exact .inr (.inl ⟨hlen, _, _, hfront⟩)

/-! ### Removing a document -/

/-- **Taking an entry back** removes it, whatever it is. -/
theorem exec_removeEntry (h : Shows c u) (hix : u.index = ix.name) (document : DocumentKey)
    (e : Entry) :
    ∃ txn opened events, (ix.removeEntry document e).exec u = (.ok (),
        { u with txn, opened, events, touched := u.touched.insert e.hash (),
                 retracted := u.retracted.insert e.hash () }) ∧
      Shows (c.remove e.etag e.hash)
        { u with txn, opened, events, touched := u.touched.insert e.hash (),
                 retracted := u.retracted.insert e.hash () } := by
  obtain ⟨txn₁, opened₁, hdelete, h₁⟩ := exec_deleteMapped h e.hash e.etag
  have h₂ : Shows (c.setBlob e.hash e.etag none)
      { u with txn := txn₁, opened := opened₁, touched := u.touched.insert e.hash (),
               retracted := u.retracted.insert e.hash () } := ⟨h₁.holds, h₁.opened, h₁.counter⟩
  obtain ⟨empty, txn₃, opened₃, hexec, hempty, h₃⟩ := exec_bucketIsEmpty h₂ e.hash
  have hfront : (ix.removeEntry document e).exec u = (do
      if ← bucketIsEmpty e.hash then
        let _ ← inTxn (Transaction.delete (groupKeyTree u.index) e.hash.encode)
      let _ ← inTxn (EntryTable.delete u.index e.etag)
      report (.entryRetracted u.index { e with document })).exec
        { u with txn := txn₁, opened := opened₁, touched := u.touched.insert e.hash (),
                 retracted := u.retracted.insert e.hash () } := by
    rw [removeEntry, exec_bind_ok hdelete, hix]
    rfl
  rw [exec_bind_ok hexec] at hfront
  cases empty with
  | false =>
      rw [if_neg Bool.false_ne_true] at hfront
      obtain ⟨_, txn₄, hrow, h₄⟩ := exec_deleteRow h₃ e.etag
      refine ⟨txn₄, opened₃, _, hfront.trans (exec_bind_ok hrow _), ?_⟩
      -- the group has other blobs and keeps its key
      have hocc : ((c.setBlob e.hash e.etag none).setRow e.etag none).Occupied e.hash :=
        not_not.1 fun hocc => Bool.false_ne_true (hempty.2 hocc)
      rw [Contents.remove, if_pos hocc]
      exact ⟨h₄.holds, h₄.opened, h₄.counter⟩
  | true =>
      rw [if_pos rfl] at hfront
      -- it was the last blob, so the group key goes too
      obtain ⟨txn₄, hkey, h₄⟩ := exec_delete h₃
        ((c.setBlob e.hash e.etag none).setGroupKey e.hash none) Site.not_inTable_groupKeys
        h₃.holds.groupKeys rfl h₃.counter (Contents.cell_setGroupKey _ e.hash none)
      obtain ⟨_, txn₅, hrow, h₅⟩ := exec_deleteRow h₄ e.etag
      refine
        ⟨txn₅, opened₃, _, hfront.trans ((exec_bind_ok hkey _).trans (exec_bind_ok hrow _)), ?_⟩
      have hocc : ¬ ((c.setBlob e.hash e.etag none).setRow e.etag none).Occupied e.hash :=
        hempty.1 rfl
      rw [Contents.remove, if_neg hocc]
      exact ⟨h₅.holds, h₅.opened, h₅.counter⟩

end Index

/-! ### What the steps keep

A property of transactions that the operations of a step keep is kept by the step.  Removing a
document adds trees and empties cells, none of them in the settings; mapping one adds trees, records
group keys and writes what tells of its etag. -/

/-- Such a cell of a tree tells of an etag. -/
def Site.Tells (etag : Etag) (key value : Bytes) : Site → Prop
  | .entries | .bucket _ => key = etag.encode
  | .documents | .hashes => value = etag.encode
  | .settings => key = Index.lastEtagKey ∧ value = etag.encode
  | .groupKeys => False

/-- The operation enters an etag into the trees of an index. -/
def Operation.Enters (index : String) (op : Operation) (etag : Etag) : Prop :=
  ∃ site key value, op = .put (Site.tree index site) key value ∧ site.Tells etag key value

theorem Operation.enters_put_iff {index : String} {site : Site} {key value : Bytes} {etag : Etag} :
    (Operation.put (site.tree index) key value).Enters index etag ↔ site.Tells etag key value := by
  constructor
  · rintro ⟨site', key', value', heq, htells⟩
    obtain ⟨htree, rfl, rfl⟩ := Operation.put.inj heq
    rwa [Site.tree_inj.1 htree]
  · exact fun htells => ⟨site, key, value, rfl, htells⟩

section

variable {may : Operation → Prop} {P : Transaction → Prop} {α : Type}

namespace Update

/-- The update works on this index, and its transaction has the property. -/
def Works (name : String) (P : Transaction → Prop) (u : Update) : Prop := u.index = name ∧ P u.txn

variable {name : String}

theorem preserves_inTxn {step : Transaction.Step α} (h : Preserves P step) :
    Preserves (Works name P) (inTxn step) := fun u hu => ⟨hu.1, h u.txn hu.2⟩

theorem preserves_view (read : Snapshot → Except IndexError α) :
    Preserves (Works name P) (view read) :=
  preserves_get.bind fun _ => preserves_lift _

theorem preserves_report (event : Event) : Preserves (Works name P) (report event) :=
  preserves_modify fun _ h => h

variable (hP : Transaction.Kept may P) {hash : GroupHash}
  (hopen : may (.createTree (bucketTree name hash)))

include hP hopen

theorem preserves_bucket : Preserves (Works name P) (bucket hash) := by
  intro u hu
  rw [exec_bucket_eq]
  dsimp only
  split
  · exact hu
  · obtain ⟨rfl, hu⟩ := hu
    exact ⟨rfl, hP.opened hopen hu⟩

/-- A step on the bucket of a group. -/
theorem preserves_bucket_bind {f : Bucket → Step α}
    (hf : Preserves (Works name P) (f ⟨name, hash⟩)) :
    Preserves (Works name P) (bucket hash >>= f) := by
  intro u hu
  have h := preserves_bucket hP hopen u hu
  have hexec := exec_bucket_eq u hash
  rw [hexec] at h
  rw [exec_bind_ok hexec]
  obtain ⟨rfl, -⟩ := hu
  exact hf _ h

theorem preserves_putMapped {etag : Etag} {blob : Bytes}
    (hput : may (.put (bucketTree name hash) etag.encode blob)) :
    Preserves (Works name P) (putMapped hash etag blob) :=
  preserves_bucket_bind hP hopen ((preserves_inTxn (hP.putStep hput)).bind
    fun _ => preserves_modify fun _ h => h)

theorem preserves_deleteMapped {etag : Etag}
    (hdelete : may (.delete (bucketTree name hash) etag.encode)) :
    Preserves (Works name P) (deleteMapped hash etag) :=
  preserves_bucket_bind hP hopen ((preserves_inTxn (hP.deleteStep hdelete)).bind
    fun _ => .bind (preserves_modify fun _ h => h) fun _ => preserves_pure _)

theorem preserves_bucketIsEmpty : Preserves (Works name P) (bucketIsEmpty hash) :=
  (preserves_bucket hP hopen).bind fun _ => preserves_get.bind fun _ => preserves_pure _

end Update

namespace Index

open Update

variable (hP : Transaction.Kept may P) (ix : Index)

include hP

theorem preserves_layOut {d : Definition}
    (hopen : ∀ site : Site, may (.createTree (site.tree d.name)))
    (hput : ∀ k v, may (.put (metaTree d.name) k v)) :
    Preserves (fun u : Update => P u.txn) (layOut d) := by
  have hin : ∀ {α : Type} {step : Transaction.Step α}, Preserves P step →
      Preserves (fun u : Update => P u.txn) (inTxn step) := fun h u hu => h u.txn hu
  have htable : Preserves P (EntryTable.create d.name) := by
    refine TableSchema.preserves_create hP fun tree htree => ?_
    obtain ⟨site, -, rfl⟩ := EntryTable.owns_iff.1 htree
    exact hopen site
  refine preserves_get.bind fun u => ?_
  refine .ite ((preserves_throw _).bind fun _ => ?_) ?_ <;>
  exact (hin (hP.createTree (hopen .settings))).bind fun _ => (preserves_lift _).bind fun _ =>
    (hin (hP.putStep (hput _ _))).bind fun _ => (hin (hP.putStep (hput _ _))).bind fun _ =>
    (hin (hP.createTree (hopen .groupKeys))).bind fun _ => hin htable

theorem preserves_recordGroupKey {hash : GroupHash} {key : Bytes}
    (hput : may (.put (groupKeyTree ix.name) hash.encode key)) :
    Preserves (Works ix.name P) (ix.recordGroupKey hash key) :=
  (preserves_view _).bind fun _ => .ite (preserves_inTxn (hP.putStep hput)) (preserves_pure _)

/-- A row tells of its etag, and so do its entries in the index trees. -/
theorem preserves_insertRow {e : Entry} (henter : ∀ site : Site, site.InTable → ∀ key value,
      site.Tells e.etag key value → may (.put (site.tree ix.name) key value)) :
    Preserves P (EntryTable.insert ix.name e) := by
  refine TableSchema.preserves_insert hP _ _ fun key hkey => ?_
  obtain rfl : e.etag.encode = key := Except.ok.inj hkey
  refine ⟨fun stored => henter .entries (.inl rfl) _ _ rfl, fun index hindex entry => ?_⟩
  rw [EntryTable.schema_indexes] at hindex
  rcases List.mem_pair.1 hindex with rfl | rfl
  · rw [EntryTable.indexTree_byDocument]
    exact henter .documents (.inr (.inl rfl)) _ _ rfl
  · rw [EntryTable.indexTree_byHash]
    exact henter .hashes (.inr (.inr rfl)) _ _ rfl

theorem preserves_enterDocument {document : DocumentKey} {hash : GroupHash} {key blob : Bytes}
    {etag : Etag} (hopen : may (.createTree (bucketTree ix.name hash)))
    (hkey : may (.put (groupKeyTree ix.name) hash.encode key))
    (henter : ∀ op : Operation, op.Enters ix.name etag → may op) :
    Preserves (Works ix.name P) (ix.enterDocument document hash key blob etag) := by
  have hblob : may (.put (bucketTree ix.name hash) etag.encode blob) := by
    rw [← Site.tree_bucket]
    exact henter _ ⟨.bucket hash, _, _, rfl, rfl⟩
  have hlast : may (.put (metaTree ix.name) lastEtagKey etag.encode) :=
    henter _ ⟨.settings, _, _, rfl, rfl, rfl⟩
  have hrow : Preserves P (EntryTable.insert ix.name ⟨etag, document, hash⟩) :=
    preserves_insertRow hP ix fun site _ _ _ h => henter _ ⟨site, _, _, rfl, h⟩
  exact (preserves_putMapped hP hopen hblob).bind fun _ =>
    (preserves_inTxn (hP.putStep hlast)).bind fun _ =>
    (preserves_recordGroupKey hP ix hkey).bind fun _ =>
    (preserves_inTxn hrow).bind fun _ => (preserves_report _).bind fun _ => preserves_pure _

theorem preserves_mapDocument (hopen : ∀ hash, may (.createTree (bucketTree ix.name hash)))
    (hkey : ∀ k v, may (.put (groupKeyTree ix.name) k v))
    (henter : ∀ (op : Operation) etag, op.Enters ix.name etag → may op) (document : Document) :
    Preserves (Works ix.name P) (ix.mapDocument document) := by
  intro u hu
  rcases ix.mapDocument_cases document with ⟨e, h⟩ | ⟨_, key, hash, blob, -, -, hnone, hsome⟩
  · rw [h]
    exact hu
  · cases hetag : u.lastEtag.next? with
    | none =>
        rw [hnone u hetag]
        exact hu
    | some etag =>
        rw [hsome u etag hetag]
        exact preserves_enterDocument hP ix (hopen hash) (hkey _ _) (fun op => henter op etag) _ hu

theorem preserves_removeEntry {e : Entry} (hopen : may (.createTree (bucketTree ix.name e.hash)))
    (hdelete : ∀ site : Site, site ≠ .settings → ∀ k, may (.delete (site.tree ix.name) k))
    (document : DocumentKey) :
    Preserves (Works ix.name P) (ix.removeEntry document e) := by
  have hblob : may (.delete (bucketTree ix.name e.hash) e.etag.encode) := by
    rw [← Site.tree_bucket]
    exact hdelete (.bucket e.hash) (by simp) _
  have hrow : Preserves P (EntryTable.delete ix.name e.etag) := by
    refine TableSchema.preserves_delete hP _ _ fun tree htree k => ?_
    obtain ⟨site, hsite, rfl⟩ := EntryTable.owns_iff.1 htree
    exact hdelete site (fun h => Site.not_inTable_settings (h ▸ hsite)) k
  have hend : Preserves (Works ix.name P) (do
      let _ ← inTxn (EntryTable.delete ix.name e.etag)
      report (.entryRetracted ix.name { e with document })) :=
    (preserves_inTxn hrow).bind fun _ => preserves_report _
  exact (preserves_deleteMapped hP hopen hblob).bind fun _ =>
    .bind (preserves_modify fun _ h => h) fun _ => (preserves_bucketIsEmpty hP hopen).bind
    fun _ => .ite ((preserves_inTxn (hP.deleteStep (hdelete .groupKeys (by simp) _))).bind
      fun _ => hend) hend

theorem preserves_removeDocument (hopen : ∀ hash, may (.createTree (bucketTree ix.name hash)))
    (hdelete : ∀ site : Site, site ≠ .settings → ∀ k, may (.delete (site.tree ix.name) k))
    (key : DocumentKey) : Preserves (Works ix.name P) (ix.removeDocument key) :=
  (preserves_view _).bind fun _ => (preserves_forM fun _ _ =>
    preserves_removeEntry hP ix (hopen _) hdelete _).bind fun _ => preserves_pure _

end Index

end

end Rollup
