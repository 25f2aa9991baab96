import Rollup.Proofs.Index.Batch
import Rollup.Proofs.Index.Outputs

/-!
# Untouched groups — what a batch leaves alone

A batch writes down which groups it touches, and it writes to the trees of no other: of a group that
it has not touched, the bucket and the recorded key are what they were, and no result is taken back
(`spared_applyChanges`, `Live.sameGroup_of_stage`).  That is so whatever was in the trees before.
So a group that can be reduced keeps its output until it is touched (`reduceIn_of_sameGroup`).

A step that writes to the bucket of a group touches it, unless it fails before it has written
(`Touching`).
-/

namespace Rollup

open Rollup.Action Update

/-- What the output of a group is made of is the same in both. -/
structure Index.SameGroup (index : String) (group : GroupHash) (s t : Snapshot) : Prop where
  bucket : ∀ k, t.cell (bucketTree index group) k = s.cell (bucketTree index group) k
  groupKey : t.cell (groupKeyTree index) group.encode = s.cell (groupKeyTree index) group.encode
  trees : s.hasTree (groupKeyTree index) = true → t.hasTree (groupKeyTree index) = true

theorem Index.SameGroup.refl (index : String) (group : GroupHash) (s : Snapshot) :
    SameGroup index group s s := ⟨fun _ => rfl, rfl, id⟩

/-- **A group keeps its output** as long as bucket and key are the same. -/
theorem Index.reduceIn_of_sameGroup {ix : Index} {group : GroupHash} {s t : Snapshot}
    (h : SameGroup ix.name group s t) {output : Option Value}
    (houtput : ix.reduceIn s group = .ok output) : ix.reduceIn t group = .ok output := by
  obtain ⟨entries, key, hentries, hkey, hreduce⟩ := reduceIn_eq_ok_iff.1 houtput
  refine reduceIn_eq_ok_iff.2 ⟨entries, key, ?_, ?_, hreduce⟩
  · have hbucket : t.treeAt (bucketTree ix.name group) = s.treeAt (bucketTree ix.name group) :=
      Snapshot.treeAt_congr h.bucket
    rw [← hentries, bucketIn, bucketIn, Bucket.entries_eq, Bucket.entries_eq, Bucket.tree, hbucket]
  · rw [groupKeyIn, Snapshot.lookup_eq] at hkey ⊢
    split at hkey
    · next htree => rwa [if_pos (h.trees htree), h.groupKey]
    · cases hkey

/-- A key of a tree that is neither one of the bucket of the group nor that of its recorded key. -/
def Index.Apart (index : String) (group : GroupHash) (tree : String) (key : Bytes) : Prop :=
  tree ≠ bucketTree index group ∧ ¬ (tree = groupKeyTree index ∧ key = group.encode)

/-- The operation writes neither to the bucket of the group nor its key. -/
def Operation.SparesGroup (index : String) (group : GroupHash) : Operation → Prop
  | .createTree _ => True
  | .put tree key _ | .delete tree key => Index.Apart index group tree key

section

variable {index : String} {group hash : GroupHash} {s : Snapshot} {site : Site} {key : Bytes}

theorem Index.apart_site (hsite : site ≠ .bucket group)
    (hkey : site = .groupKeys → key ≠ group.encode) : Apart index group (site.tree index) key := by
  rw [Apart, ← Site.tree_bucket, ← Site.tree_groupKeys, Ne, Site.tree_inj, Site.tree_inj]
  exact ⟨hsite, fun h => hkey h.1 h.2⟩

theorem Index.apart_bucket (h : hash ≠ group) : Apart index group (bucketTree index hash) key := by
  rw [← Site.tree_bucket]
  exact apart_site (by simpa using h) nofun

theorem Index.apart_groupKey (h : hash ≠ group) :
    Apart index group (groupKeyTree index) hash.encode := by
  rw [← Site.tree_groupKeys]
  exact apart_site (by simp) fun _ he => h (GroupHash.encode_inj.1 he)

theorem Index.apart_table (hsite : site.InTable) : Apart index group (site.tree index) key := by
  rcases hsite with rfl | rfl | rfl <;> exact apart_site (by simp) nofun

theorem Index.apart_settings : Apart index group (metaTree index) key := by
  rw [← Site.tree_settings]
  exact apart_site (by simp) nofun

theorem Index.kept_sameGroup : Transaction.Kept (Operation.SparesGroup index group)
    fun txn => SameGroup index group s txn.working where
  push {txn op t} hspares hop h := by
    cases op with
    | createTree tree =>
        have hop : (.ok (txn.working.addTree tree) : Except StorageError Snapshot) = .ok t := hop
        cases hop
        exact ⟨by simpa using h.bucket, by simpa using h.groupKey,
          fun hs => by simp [h.trees hs]⟩
    | put tree key value =>
        rw [Operation.apply_put] at hop
        split at hop
        · next htree =>
          cases hop
          have hcell := Snapshot.cell_put htree key value
          refine ⟨fun k => ?_, ?_, fun hs => by simp [h.trees hs]⟩
          · rw [hcell, if_neg fun e => hspares.1 e.1.symm, h.bucket]
          · rw [hcell, if_neg fun e => hspares.2 ⟨e.1.symm, e.2.symm⟩, h.groupKey]
        · cases hop
    | delete tree key =>
        rw [Operation.apply_delete] at hop
        split at hop
        · cases hop
          have hcell := Snapshot.cell_remove txn.working tree key
          refine ⟨fun k => ?_, ?_, fun hs => by simp [h.trees hs]⟩
          · rw [hcell, if_neg fun e => hspares.1 e.1.symm, h.bucket]
          · rw [hcell, if_neg fun e => hspares.2 ⟨e.1.symm, e.2.symm⟩, h.groupKey]
        · cases hop

end

/-! ### The steps of an update -/

namespace Update

/-- The group was touched, or the transaction has the property and nothing was taken back. -/
def Framed (index : String) (group : GroupHash) (P : Transaction → Prop) (u : Update) : Prop :=
  u.index = index ∧
    (u.touched.contains group = true ∨ P u.txn ∧ ¬ u.retracted.contains group = true)

/-- The group was touched. -/
abbrev Touched (index : String) (group : GroupHash) (u : Update) : Prop :=
  Framed index group (fun _ => False) u

section

variable {α : Type} {index : String} {group hash : GroupHash} {may : Operation → Prop}
  {P : Transaction → Prop} {u : Update}

theorem Touched.framed (h : Touched index group u) : Framed index group P u :=
  ⟨h.1, .inl (h.2.resolve_right fun hf => hf.1)⟩

theorem kept_false : Transaction.Kept (fun _ => True) fun _ => False := ⟨fun _ _ h => h⟩

theorem framed_inTxn {step : Transaction.Step α} (h : Preserves P step) :
    Preserves (Framed index group P) (inTxn step) := fun u hu =>
  ⟨hu.1, hu.2.imp_right fun hu => ⟨h u.txn hu.1, hu.2⟩⟩

theorem framed_view (read : Snapshot → Except IndexError α) :
    Preserves (Framed index group P) (view read) := preserves_get.bind fun _ => preserves_lift _

theorem framed_report (event : Event) : Preserves (Framed index group P) (report event) :=
  preserves_modify fun _ h => h

theorem framed_touch (hash : GroupHash) : Preserves (Framed index group P) (touch hash) :=
  preserves_modify fun u hu => ⟨hu.1, hu.2.imp_left fun h => by
    rw [OrderedMap.contains_insert]
    exact .inr h⟩

/-- A result is taken back of another group, or of one that was touched. -/
theorem framed_retract (h : hash = group → ∀ txn, ¬ P txn) :
    Preserves (Framed index group P) (retract hash) :=
  preserves_modify fun u hu => ⟨hu.1, hu.2.imp_right fun ⟨hP, hr⟩ => ⟨hP, by
    rw [OrderedMap.contains_insert, not_or]
    exact ⟨fun e => h e.symm _ hP, hr⟩⟩⟩

variable (hP : Transaction.Kept may P) (hopen : ∀ tree, may (.createTree tree))

include hP hopen

theorem framed_bucket (hash : GroupHash) : Preserves (Framed index group P) (bucket hash) := by
  intro u hu
  rw [exec_bucket_eq]
  dsimp only
  split
  · exact hu
  · exact ⟨hu.1, hu.2.imp_right fun hu => ⟨hP.opened (hopen _) hu.1, hu.2⟩⟩

theorem framed_bucketIsEmpty (hash : GroupHash) :
    Preserves (Framed index group P) (bucketIsEmpty hash) :=
  (framed_bucket hP hopen hash).bind fun _ => preserves_get.bind fun _ => preserves_pure _

theorem framed_bucket_bind {f : Bucket → Step α}
    (h : Preserves (Framed index group P) (f ⟨index, hash⟩)) :
    Preserves (Framed index group P) (bucket hash >>= f) := by
  intro u hu
  have hu' := framed_bucket hP hopen hash u hu
  have hexec := exec_bucket_eq u hash
  rw [hexec] at hu'
  rw [exec_bind_ok hexec]
  obtain ⟨rfl, -⟩ := hu
  exact h _ hu'

/-- Writing to the bucket of another group. -/
theorem framed_putMapped {etag : Etag} {blob : Bytes}
    (hput : may (.put (bucketTree index hash) etag.encode blob)) :
    Preserves (Framed index group P) (putMapped hash etag blob) :=
  framed_bucket_bind hP hopen ((framed_inTxn (hP.putStep hput)).bind fun _ => framed_touch hash)

theorem framed_deleteMapped {etag : Etag}
    (hdelete : may (.delete (bucketTree index hash) etag.encode)) :
    Preserves (Framed index group P) (deleteMapped hash etag) :=
  framed_bucket_bind hP hopen ((framed_inTxn (hP.deleteStep hdelete)).bind fun _ =>
    (framed_touch hash).bind fun _ => preserves_pure _)

end

/-! ### The steps that touch a group -/

section

variable {α β : Type} {index : String} {group : GroupHash} {may : Operation → Prop}
  {P : Transaction → Prop}

/-- Unless it fails, the group was touched. -/
def Touching (index : String) (group : GroupHash) (P : Transaction → Prop) (step : Step α) : Prop :=
  ∀ u, Framed index group P u →
    (∃ e, (step.exec u).1 = .error e ∧ Framed index group P (step.exec u).2) ∨
    Touched index group (step.exec u).2

theorem Touching.bind {x : Step α} {f : α → Step β} (hx : Touching index group P x)
    (hf : ∀ a, Preserves (Touched index group) (f a)) :
    Preserves (Framed index group P) (x >>= f) := by
  intro u hu
  rw [exec_bind]
  rcases hx u hu with ⟨e, herror, hframed⟩ | htouched
  · rcases hexec : x.exec u with ⟨_ | a, u'⟩ <;> rw [hexec] at herror hframed
    · exact hframed
    · cases herror
  · rcases hexec : x.exec u with ⟨_ | a, u'⟩ <;> rw [hexec] at htouched
    · exact htouched.framed
    · exact (hf a u' htouched).framed

theorem touched_touch {u : Update} (h : u.index = index) :
    Touched index group ((touch group).exec u).2 := by
  refine ⟨h, .inl ?_⟩
  show (u.touched.insert group ()).contains group = true
  rw [OrderedMap.contains_insert]
  exact .inl rfl

section

variable (hP : Transaction.Kept may P) (hopen : ∀ tree, may (.createTree tree))

include hP hopen

/-- A write to the bucket of the group; one that fails changes nothing. -/
theorem touching_write {step : Bucket → Transaction.Step α}
    (hstep : ∀ b txn e, ((step b).exec txn).1 = .error e → ((step b).exec txn).2 = txn)
    {f : α → Step β}
    (hf : ∀ a (u : Update), u.index = index → Touched index group ((f a).exec u).2) :
    Touching index group P (bucket group >>= fun b => inTxn (step b) >>= f) := by
  intro u hu
  have hbucket := framed_bucket hP hopen group u hu
  have hexec := exec_bucket_eq u group
  rw [hexec] at hbucket
  rw [exec_bind_ok hexec]
  generalize (if u.opened.contains group then u else _) = v at hbucket
  have hv : (inTxn (step ⟨u.index, group⟩)).exec v =
      (((step ⟨u.index, group⟩).exec v.txn).1.mapError .storage,
        { v with txn := ((step ⟨u.index, group⟩).exec v.txn).2 }) := rfl
  rw [exec_bind, hv]
  cases hanswer : ((step ⟨u.index, group⟩).exec v.txn).1 with
  | error e =>
      rw [hstep _ _ e hanswer]
      exact .inl ⟨_, rfl, hbucket⟩
  | ok a => exact .inr (hf a _ hbucket.1)

theorem touching_putMapped (etag : Etag) (blob : Bytes) :
    Touching index group P (putMapped group etag blob) := by
  refine touching_write hP hopen (fun b txn e herror => ?_) fun _ u => touched_touch
  rw [Bucket.put, Transaction.exec_put] at herror ⊢
  split at herror
  · cases herror
  · next h => rw [if_neg h]

theorem touching_deleteMapped (etag : Etag) :
    Touching index group P (deleteMapped group etag) := by
  refine touching_write hP hopen (fun b txn e herror => ?_) fun removed u hu => ?_
  · rw [Bucket.delete, Transaction.exec_delete] at herror ⊢
    split at herror
    · cases herror
    · next h => rw [if_neg h]
  · exact touched_touch hu

end

end

end Update

namespace Index

variable {group : GroupHash} {may : Operation → Prop} {P : Transaction → Prop}
  (hP : Transaction.Kept may P) (ix : Index) (hopen : ∀ tree, may (.createTree tree))

/-! ### What stands behind a blob -/

/-- What removing an entry does behind its blob. -/
def forgetEntry (ix : Index) (document : DocumentKey) (e : Entry) : Update.Step Unit := do
  Update.retract e.hash
  if ← Update.bucketIsEmpty e.hash then
    let _ ← Update.inTxn (Transaction.delete (groupKeyTree ix.name) e.hash.encode)
  let _ ← Update.inTxn (EntryTable.delete ix.name e.etag)
  Update.report (.entryRetracted ix.name { e with document })

/-- What mapping a document does behind its blob. -/
def recordEntry (ix : Index) (document : DocumentKey) (hash : GroupHash) (key : Bytes)
    (etag : Etag) : Update.Step Etag := do
  Update.inTxn (Transaction.put (metaTree ix.name) lastEtagKey etag.encode)
  ix.recordGroupKey hash key
  Update.inTxn (EntryTable.insert ix.name ⟨etag, document, hash⟩)
  Update.report (.documentMapped ix.name ⟨etag, document, hash⟩)
  return etag

include hP

/-- A row is deleted from the trees of the table alone. -/
theorem preserves_deleteRow
    (hdelete : ∀ site : Site, site.InTable → ∀ k, may (.delete (site.tree ix.name) k))
    (etag : Etag) : Preserves P (EntryTable.delete ix.name etag) := by
  refine TableSchema.preserves_delete hP _ _ fun tree htree k => ?_
  obtain ⟨site, hsite, rfl⟩ := EntryTable.owns_iff.1 htree
  exact hdelete site hsite k

include hopen

theorem framed_forgetEntry (document : DocumentKey) {e : Entry}
    (hsame : e.hash = group → ∀ txn, ¬ P txn)
    (hkey : may (.delete (groupKeyTree ix.name) e.hash.encode))
    (hdelete : ∀ site : Site, site.InTable → ∀ k, may (.delete (site.tree ix.name) k)) :
    Preserves (Framed ix.name group P) (ix.forgetEntry document e) := by
  have hend : Preserves (Framed ix.name group P) (do
      let _ ← inTxn (EntryTable.delete ix.name e.etag)
      Update.report (.entryRetracted ix.name { e with document })) :=
    (framed_inTxn (preserves_deleteRow hP ix hdelete e.etag)).bind fun _ => framed_report _
  exact (framed_retract hsame).bind fun _ => (framed_bucketIsEmpty hP hopen _).bind fun _ =>
    .ite ((framed_inTxn (hP.deleteStep hkey)).bind fun _ => hend) hend

omit hopen in
theorem framed_recordEntry {document : DocumentKey} {hash : GroupHash} {key : Bytes} {etag : Etag}
    (hlast : may (.put (metaTree ix.name) lastEtagKey etag.encode))
    (hkey : may (.put (groupKeyTree ix.name) hash.encode key))
    (hput : ∀ site : Site, site.InTable → ∀ k v, may (.put (site.tree ix.name) k v)) :
    Preserves (Framed ix.name group P) (ix.recordEntry document hash key etag) := by
  have hrecord : Preserves (Framed ix.name group P) (ix.recordGroupKey hash key) :=
    (framed_view _).bind fun _ => .ite (framed_inTxn (hP.putStep hkey)) (preserves_pure _)
  have hinsert : Preserves P (EntryTable.insert ix.name ⟨etag, document, hash⟩) :=
    preserves_insertRow hP ix fun site hsite k v _ => hput site hsite k v
  exact (framed_inTxn (hP.putStep hlast)).bind fun _ => hrecord.bind fun _ =>
    (framed_inTxn hinsert).bind fun _ => (framed_report _).bind fun _ => preserves_pure _

end Index

namespace Index

variable {group : GroupHash} {s : Snapshot}

/-! ### Changes -/

/-- The group is as it was in a snapshot, unless it was touched. -/
abbrev Spared (ix : Index) (group : GroupHash) (s : Snapshot) : Update → Prop :=
  Framed ix.name group fun txn => SameGroup ix.name group s txn.working

theorem spared_removeEntry (ix : Index) (document : DocumentKey) (e : Entry) :
    Preserves (ix.Spared group s) (ix.removeEntry document e) := by
  by_cases h : e.hash = group
  · subst h
    exact (touching_deleteMapped kept_sameGroup (fun _ => trivial) e.etag).bind fun _ =>
      framed_forgetEntry kept_false ix (fun _ => trivial) document (fun _ _ => id) trivial
        fun _ _ _ => trivial
  · have hend : Preserves (ix.Spared group s) (ix.forgetEntry document e) :=
      framed_forgetEntry kept_sameGroup ix (fun _ => trivial) document (fun he => absurd he h)
        (apart_groupKey h) fun _ hsite _ => apart_table hsite
    exact (framed_deleteMapped kept_sameGroup (fun _ => trivial) (apart_bucket h)).bind
      fun _ => hend

theorem spared_removeDocument (ix : Index) (key : DocumentKey) :
    Preserves (ix.Spared group s) (ix.removeDocument key) :=
  (framed_view _).bind fun _ => (preserves_forM fun e _ => spared_removeEntry ix key e).bind
    fun _ => preserves_pure _

theorem spared_enterDocument (ix : Index) (document : DocumentKey) (hash : GroupHash)
    (key blob : Bytes) (etag : Etag) :
    Preserves (ix.Spared group s) (ix.enterDocument document hash key blob etag) := by
  by_cases h : hash = group
  · subst h
    exact (touching_putMapped kept_sameGroup (fun _ => trivial) etag blob).bind fun _ =>
      framed_recordEntry kept_false ix trivial trivial fun _ _ _ _ => trivial
  · have hend : Preserves (ix.Spared group s) (ix.recordEntry document hash key etag) :=
      framed_recordEntry kept_sameGroup ix apart_settings (apart_groupKey h)
        fun _ hsite _ _ => apart_table hsite
    exact (framed_putMapped kept_sameGroup (fun _ => trivial) (apart_bucket h)).bind fun _ => hend

theorem spared_mapDocument (ix : Index) (document : Document) :
    Preserves (ix.Spared group s) (ix.mapDocument document) := by
  intro u hu
  rcases ix.mapDocument_cases document with ⟨e, h⟩ | ⟨_, key, hash, blob, -, -, hnone, hsome⟩
  · rw [h]
    exact hu
  · cases hetag : u.lastEtag.next? with
    | none =>
        rw [hnone u hetag]
        exact hu
    | some etag =>
        rw [hsome u etag hetag]
        exact spared_enterDocument ix document.key hash key blob etag _ hu

theorem spared_applyChanges (ix : Index) (changes : List Change) :
    Preserves (ix.Spared group s) (ix.applyChanges changes) :=
  preserves_changes (spared_removeDocument ix) (spared_mapDocument ix) changes

end Index

/-- **A group that a batch has not touched** is what it was, and no result of it is taken back. -/
theorem Live.sameGroup_of_stage {β σ : Type} (live : Live β σ) (changes : List Change)
    {group : GroupHash} (h : ¬ (live.stage changes).2.touched.contains group = true) :
    Index.SameGroup live.index.name group live.committed (live.stage changes).2.snapshot ∧
      ¬ (live.stage changes).2.retracted.contains group = true := by
  have hprepare : Preserves (live.index.Spared group live.committed)
      (live.index.prepare changes) := by
    refine (Index.spared_applyChanges live.index changes).bind fun _ =>
      Preserves.bind (fun u hu => ?_) fun _ => preserves_pure _
    rw [Index.exec_outputs]
    exact hu
  have hstart : live.index.Spared group live.committed live.start :=
    ⟨rfl, .inr ⟨.refl _ _ _, Bool.false_ne_true⟩⟩
  exact (hprepare live.start hstart).2.resolve_left h

end Rollup
