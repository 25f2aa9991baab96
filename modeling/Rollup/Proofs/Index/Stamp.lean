import Rollup.Proofs.Index.Calls
import Rollup.Proofs.Index.Creation

/-!
# Stamps — the etags in a transaction, and the stored last etag

Mapping a document writes its etag into the settings of the index before it can fail in the table.
So whatever calls are made inside a transaction and whatever they answer, all that it enters lies
between the counter at its beginning and the last etag that it stores (`Stamped`).  What it stores
does not depend on what was stored before, so it stores the same when it is replayed from a log that
has more records.
-/

namespace Rollup

open Rollup.Action Update

/-! ### What is stored -/

/-- What the operation makes of the stored last etag of an index, wherever it is applied. -/
def Operation.Stores (index : String) (f : Option Bytes → Option Bytes) (op : Operation) : Prop :=
  ∀ s t, op.apply s = .ok t →
    t.cell (metaTree index) Index.lastEtagKey = f (s.cell (metaTree index) Index.lastEtagKey)

/-- What the operations of the transaction make of it, wherever they are replayed. -/
def Transaction.Stores (index : String) (f : Option Bytes → Option Bytes) (txn : Transaction) :
    Prop :=
  ∀ s t, Operation.applyAll s txn.ops.toList = .ok t →
    t.cell (metaTree index) Index.lastEtagKey = f (s.cell (metaTree index) Index.lastEtagKey)

/-- The transaction enters an etag into the trees of an index. -/
def Transaction.Enters (index : String) (txn : Transaction) (etag : Etag) : Prop :=
  ∃ op ∈ txn.ops.toList, op.Enters index etag

/-- What tells of one etag tells of no other. -/
theorem Site.eq_of_tells {site : Site} {etag etag' : Etag} {key value : Bytes}
    (h : site.Tells etag key value) (h' : site.Tells etag' key value) : etag = etag' := by
  cases site with
  | groupKeys => exact h.elim
  | settings => exact Etag.encode_inj.1 (h.2.symm.trans h'.2)
  | entries | documents | hashes | bucket hash => exact Etag.encode_inj.1 (h.symm.trans h')

namespace Operation

variable {index : String}

theorem stores_createTree (tree : String) : (createTree tree).Stores index id := fun s t h => by
  cases h
  exact Snapshot.cell_addTree ..

theorem stores_put {site : Site} (hsite : site ≠ .settings) (key value : Bytes) :
    (put (site.tree index) key value).Stores index id := fun s t h => by
  rw [apply_put] at h
  split at h <;> cases h
  next htree =>
  rw [Snapshot.cell_put htree, ← Site.tree_settings,
    if_neg fun e => hsite (Site.tree_inj.1 e.1).symm, id]

theorem stores_delete {site : Site} (hsite : site ≠ .settings) (key : Bytes) :
    (delete (site.tree index) key).Stores index id := fun s t h => by
  rw [apply_delete] at h
  split at h <;> cases h
  rw [Snapshot.cell_remove, ← Site.tree_settings,
    if_neg fun e => hsite (Site.tree_inj.1 e.1).symm, id]

theorem stores_last (value : Bytes) :
    (put (metaTree index) Index.lastEtagKey value).Stores index fun _ => some value :=
  fun s t h => by
    rw [apply_put] at h
    split at h <;> cases h
    next htree =>
    rw [Snapshot.cell_put htree, if_pos ⟨rfl, rfl⟩]

end Operation

namespace Transaction

variable {index : String}

theorem Stores.push {f g : Option Bytes → Option Bytes} {txn : Transaction} {op : Operation}
    (h : txn.Stores index f) (hop : op.Stores index g) (s : Snapshot) :
    Stores index (g ∘ f) ⟨s, txn.ops.push op⟩ := fun s₀ t ht => by
  rw [Array.toList_push, Operation.applyAll_append, bind_eq_ok_iff] at ht
  obtain ⟨s₁, hs₁, ht⟩ := ht
  obtain ⟨t', ht', ht⟩ := bind_eq_ok_iff.1 ht
  cases ht
  rw [hop s₁ t ht', h s₀ s₁ hs₁, Function.comp_apply]

theorem kept_stores (f : Option Bytes → Option Bytes) :
    Kept (Operation.Stores index id) (Stores index f) where
  push hop _ h := h.push hop _

/-- Storing a last etag. -/
theorem stores_putAt (txn : Transaction) (value : Bytes) :
    (txn.putAt (metaTree index) Index.lastEtagKey value).Stores index fun _ => some value :=
  fun s t ht => by
    rw [putAt, Array.toList_push, Operation.applyAll_append, bind_eq_ok_iff] at ht
    obtain ⟨s₁, -, ht⟩ := ht
    obtain ⟨t', ht', ht⟩ := bind_eq_ok_iff.1 ht
    cases ht
    exact Operation.stores_last value s₁ t ht'

end Transaction

/-- Laying out an index stores the etag that stands before all others. -/
theorem Index.stores_laidOut (txn : Transaction) (index : String) (stored : Bytes) :
    (laidOut txn index stored).Stores index fun _ => some Etag.zero.encode := by
  have hkept := @Transaction.kept_stores index fun _ => some Etag.zero.encode
  exact TableSchema.preserves_create hkept (fun tree _ => Operation.stores_createTree tree) _
    (hkept.opened (Operation.stores_createTree _) (Transaction.stores_putAt _ _))

/-! ### Transactions -/

/-- An operation that leaves the stored last etag alone, and enters etags of a range only. -/
structure Operation.Spares (index : String) (first bound : Etag) (op : Operation) : Prop where
  entered : ∀ etag, op.Enters index etag →
    first.toNat < etag.toNat ∧ etag.toNat ≤ bound.toNat
  stored : op.Stores index id

/-- A transaction that began at one etag has stored another, or the same if it stored none. -/
structure Transaction.Stamped (index : String) (first last bound : Etag) (txn : Transaction) :
    Prop where
  settings : txn.working.hasTree (metaTree index) = true
  entered : ∀ etag, txn.Enters index etag → first.toNat < etag.toNat ∧ etag.toNat ≤ bound.toNat
  stored : txn.Stores index fun found => if last = first then found else some last.encode

namespace Operation

variable {index : String} {first bound etag : Etag}

theorem spares_createTree (tree : String) : (createTree tree).Spares index first bound where
  entered := by rintro _ ⟨_, _, _, h, -⟩; cases h
  stored := stores_createTree tree

theorem spares_delete {site : Site} (hsite : site ≠ .settings) (key : Bytes) :
    (delete (site.tree index) key).Spares index first bound where
  entered := by rintro _ ⟨_, _, _, h, -⟩; cases h
  stored := stores_delete hsite key

/-- What tells of an etag of the range, outside the settings. -/
theorem spares_of_tells {site : Site} (hsite : site ≠ .settings) {key value : Bytes}
    (h : site.Tells etag key value) (hrange : first.toNat < etag.toNat ∧ etag.toNat ≤ bound.toNat) :
    (put (site.tree index) key value).Spares index first bound where
  entered etag' h' := by
    obtain rfl := Site.eq_of_tells h (enters_put_iff.1 h')
    exact hrange
  stored := stores_put hsite key value

theorem spares_groupKey (key value : Bytes) :
    (put (groupKeyTree index) key value).Spares index first bound where
  entered _ h := ((@enters_put_iff index .groupKeys _ _ _).1 h).elim
  stored := @stores_put index .groupKeys (by simp) key value

end Operation

namespace Transaction

variable {index : String} {first last bound etag : Etag} {txn : Transaction}

theorem enters_push {s : Snapshot} {op : Operation} :
    Enters index ⟨s, txn.ops.push op⟩ etag ↔ txn.Enters index etag ∨ op.Enters index etag := by
  simp only [Enters, Array.toList_push, List.mem_append, List.mem_singleton, or_and_right,
    exists_or, exists_eq_left]

theorem stamped_on {s : Snapshot} (h : s.hasTree (metaTree index) = true) (first : Etag) :
    Stamped index first first first (.on s) where
  settings := h
  entered _ h := by
    obtain ⟨_, hop, -⟩ := h
    cases hop
  stored s t h := by
    cases h
    exact (if_pos rfl).symm

theorem kept_stamped : Kept (Operation.Spares index first bound)
    (Stamped index first last bound) where
  push {txn op s} hop happly h := by
    refine ⟨Operation.hasTree_of_apply happly h.settings, fun etag henters => ?_,
      h.stored.push hop.stored s⟩
    rcases enters_push.1 henters with henters | henters
    · exact h.entered etag henters
    · exact hop.entered etag henters

theorem Stamped.mono (h : Stamped index first last bound txn) (hle : bound.toNat ≤ etag.toNat) :
    Stamped index first last etag txn :=
  ⟨h.settings, fun f hf => ⟨(h.entered f hf).1, Nat.le_trans (h.entered f hf).2 hle⟩, h.stored⟩

/-- Storing an etag. -/
theorem Stamped.stamp (h : Stamped index first last etag txn) (hlt : first.toNat < etag.toNat) :
    Stamped index first etag etag (txn.putAt (metaTree index) Index.lastEtagKey etag.encode) where
  settings := by simpa using h.settings
  entered f hf := by
    rcases enters_push.1 hf with hf | hf
    · exact h.entered f hf
    · obtain ⟨-, htells⟩ := (@Operation.enters_put_iff index .settings _ _ _).1 hf
      obtain rfl := Etag.encode_inj.1 htells
      exact ⟨hlt, Nat.le_refl _⟩
  stored s t ht := by
    have hne : etag ≠ first := fun e => Nat.lt_irrefl _ (e ▸ hlt)
    exact (stores_putAt txn etag.encode s t ht).trans (if_neg hne).symm

/-- What a stamped transaction leaves where another last etag was stored. -/
def stampOver (first last base : Etag) : Etag := if last = first then base else last

theorem Stamped.cell (h : Stamped index first last bound txn) {s t : Snapshot} {base : Etag}
    (hbase : s.cell (metaTree index) Index.lastEtagKey = some base.encode)
    (happly : Operation.applyAll s txn.ops.toList = .ok t) :
    t.cell (metaTree index) Index.lastEtagKey = some (stampOver first last base).encode := by
  rw [h.stored s t happly, hbase, stampOver]
  split <;> rfl

/-- All that it entered is no further. -/
theorem Stamped.le_of_enters (h : Stamped index first last last txn) (base etag : Etag)
    (henters : ∃ txn' ∈ [txn], txn'.Enters index etag) :
    etag.toNat ≤ (stampOver first last base).toNat := by
  obtain ⟨_, hmem, henters⟩ := henters
  cases List.mem_singleton.1 hmem
  obtain ⟨hlt, hle⟩ := h.entered etag henters
  rw [stampOver, if_neg fun e => Nat.lt_irrefl _ (e ▸ Nat.lt_of_lt_of_le hlt hle)]
  exact hle

theorem le_of_enters_none (etag : Etag)
    (henters : ∃ txn' ∈ ([] : List Transaction), txn'.Enters index etag) :
    etag.toNat ≤ bound.toNat := by
  obtain ⟨_, hno, -⟩ := henters
  cases hno

theorem le_stampOver {base : Etag} (hbase : base.toNat ≤ first.toNat)
    (hlast : first.toNat ≤ last.toNat) : base.toNat ≤ (stampOver first last base).toNat := by
  rw [stampOver]
  split
  · exact Nat.le_refl _
  · exact Nat.le_trans hbase hlast

theorem stampOver_le {base : Etag} (hbase : base.toNat ≤ bound.toNat)
    (hlast : last.toNat ≤ bound.toNat) : (stampOver first last base).toNat ≤ bound.toNat := by
  rw [stampOver]
  split
  · exact hbase
  · exact hlast

theorem stampOver_le_stampOver {base base' : Etag} (h : base.toNat ≤ base'.toNat) :
    (stampOver first last base).toNat ≤ (stampOver first last base').toNat := by
  rw [stampOver, stampOver]
  split
  · exact h
  · exact Nat.le_refl _

end Transaction

/-! ### Updates -/

/-- An update on an index whose counter began here: what it entered is not behind what it stored,
and that not behind its counter. -/
structure Update.Dated (name : String) (first : Etag) (u : Update) : Prop where
  index : u.index = name
  stamped : ∃ last : Etag, first.toNat ≤ last.toNat ∧ last.toNat ≤ u.lastEtag.toNat ∧
    u.txn.Stamped name first last last

namespace Update

/-- **Putting a blob**, seen on the transaction. -/
theorem exec_putMapped_eq (u : Update) (hash : GroupHash) (etag : Etag) (blob : Bytes) :
    (putMapped hash etag blob).exec u =
      let u₁ := ((bucket hash).exec u).2
      if u₁.txn.working.hasTree (bucketTree u.index hash) then
        (.ok (), { u₁ with txn := u₁.txn.putAt (bucketTree u.index hash) etag.encode blob
                           touched := u₁.touched.insert hash () })
      else (.error (.storage (.noTree (bucketTree u.index hash))), u₁) := by
  have hbucket : (bucket hash).exec u = (.ok ⟨u.index, hash⟩, ((bucket hash).exec u).2) := by
    rw [exec_bucket_eq]
  rw [putMapped, exec_bind_ok hbucket]
  generalize ((bucket hash).exec u).2 = u₁
  have hput : (Bucket.put ⟨u.index, hash⟩ etag blob).exec u₁.txn = _ :=
    Transaction.exec_put u₁.txn (bucketTree u.index hash) etag.encode blob
  dsimp only
  split
  · next htree =>
    rw [if_pos htree] at hput
    rw [exec_bind_ok (exec_inTxn hput)]
    rfl
  · next htree =>
    rw [if_neg htree] at hput
    rw [exec_bind_error (exec_inTxn_error hput)]

end Update

namespace Index

variable {ix : Index} {first last etag : Etag} {u : Update}

/-- What mapping a document writes is stamped, as far as it gets. -/
theorem stamped_enterDocument (hindex : u.index = ix.name)
    (h : u.txn.Stamped ix.name first last last) (hfirst : first.toNat ≤ last.toNat)
    (hlt : last.toNat < etag.toNat) (document : DocumentKey) (hash : GroupHash) (key blob : Bytes) :
    ∃ last', (last' = last ∨ last' = etag) ∧
      Works ix.name (Transaction.Stamped ix.name first last' last')
        ((ix.enterDocument document hash key blob etag).exec u).2 := by
  have hrange : first.toNat < etag.toNat ∧ etag.toNat ≤ etag.toNat :=
    ⟨Nat.lt_of_le_of_lt hfirst hlt, Nat.le_refl _⟩
  -- the blob
  obtain ⟨hindex₁, h₁⟩ := preserves_bucket Transaction.kept_stamped
    (Operation.spares_createTree (bucketTree ix.name hash)) u ⟨hindex, h⟩
  have hput := exec_putMapped_eq u hash etag blob
  rw [hindex] at hput
  rw [enterDocument]
  generalize ((bucket hash).exec u).2 = u₁ at hindex₁ h₁ hput
  by_cases htree : u₁.txn.working.hasTree (bucketTree ix.name hash) = true
  · have hblob : (Operation.put (bucketTree ix.name hash) etag.encode blob).Spares ix.name first
        etag := by
      rw [← Site.tree_bucket]
      exact Operation.spares_of_tells (by simp) rfl hrange
    have h₂ := Transaction.kept_stamped.put hblob htree (h₁.mono (Nat.le_of_lt hlt))
    -- the last etag
    have hlast := (Transaction.exec_put (u₁.txn.putAt (bucketTree ix.name hash) etag.encode blob)
      (metaTree ix.name) lastEtagKey etag.encode).trans (if_pos h₂.settings)
    rw [if_pos htree] at hput
    rw [exec_bind_ok hput, exec_bind_ok (exec_inTxn hlast)]
    -- the rest tells of the same etag
    have hkept := @Transaction.kept_stamped ix.name first etag etag
    have hrow : Preserves (Transaction.Stamped ix.name first etag etag)
        (EntryTable.insert ix.name ⟨etag, document, hash⟩) :=
      preserves_insertRow hkept ix fun site hsite _ _ htells => Operation.spares_of_tells
        (fun e => Site.not_inTable_settings (e ▸ hsite)) htells hrange
    have hrest : Preserves (Works ix.name (Transaction.Stamped ix.name first etag etag)) (do
        ix.recordGroupKey hash key
        inTxn (EntryTable.insert ix.name ⟨etag, document, hash⟩)
        report (.documentMapped ix.name ⟨etag, document, hash⟩)
        return etag) :=
      (preserves_recordGroupKey hkept ix (Operation.spares_groupKey _ _)).bind fun _ =>
        (preserves_inTxn hrow).bind fun _ => (preserves_report _).bind fun _ => preserves_pure _
    exact ⟨etag, .inr rfl, hrest _ ⟨hindex₁, h₂.stamp hrange.1⟩⟩
  -- without its bucket the document is not mapped
  · rw [if_neg htree] at hput
    rw [exec_bind_error hput]
    exact ⟨last, .inl rfl, hindex₁, h₁⟩

/-- **A call keeps an update dated**, whatever it answers. -/
theorem dated_call (h : u.Dated ix.name first) (c : Call) : (ix.call u c).Dated ix.name first := by
  obtain ⟨hindex, last, hfirst, hlast, hstamped⟩ := h
  cases c with
  | remove key =>
      have hcounter := ix.lastEtag_call_remove u key
      rw [call_remove] at hcounter ⊢
      obtain ⟨hindex', hstamped'⟩ := preserves_removeDocument Transaction.kept_stamped ix
        (fun _ => Operation.spares_createTree _) (fun _ hsite => Operation.spares_delete hsite)
        key u ⟨hindex, hstamped⟩
      exact ⟨hindex', last, hfirst, hcounter ▸ hlast, hstamped'⟩
  | map document =>
      rw [call_map]
      rcases ix.mapDocument_cases document with ⟨e, h⟩ | ⟨_, key, hash, blob, -, -, hnone, hsome⟩
      · rw [h]
        exact ⟨hindex, last, hfirst, hlast, hstamped⟩
      · cases hetag : u.lastEtag.next? with
        | none =>
            rw [hnone u hetag]
            exact ⟨hindex, last, hfirst, hlast, hstamped⟩
        | some etag =>
            have hlt : last.toNat < etag.toNat := by
              rw [Etag.toNat_of_next? hetag]
              omega
            have hblind := ix.blind_enterDocument document.key hash key blob etag
            obtain ⟨last', hor, hindex', hstamped'⟩ := stamped_enterDocument
              (u := { u with lastEtag := etag }) hindex hstamped hfirst hlt document.key hash key
              blob
            rw [hsome u etag hetag]
            refine ⟨hindex', last', ?_, ?_, hstamped'⟩
            · rcases hor with rfl | rfl <;> omega
            · rw [hblind.lastEtag]
              rcases hor with rfl | rfl
              · exact Nat.le_of_lt hlt
              · exact Nat.le_refl _

theorem dated_calls (h : u.Dated ix.name first) (list : List Call) :
    (ix.calls u list).Dated ix.name first :=
  ix.calls_induction (fun c _ _ hu => dated_call hu c) h

end Index

namespace Live

variable {β σ : Type}

/-- **Whatever calls are made inside a transaction**, all that it enters is past the counter it
began with, and no further than the last etag it stores. -/
theorem dated_calls {live : Live β σ}
    (h : live.committed.hasTree (metaTree live.index.name) = true) (list : List Index.Call) :
    (live.index.calls live.start list).Dated live.index.name live.index.lastEtag :=
  have hstart : live.start.Dated live.index.name live.index.lastEtag :=
    ⟨rfl, _, Nat.le_refl _, Nat.le_refl _, Transaction.stamped_on h _⟩
  Index.dated_calls hstart list

end Live

end Rollup
