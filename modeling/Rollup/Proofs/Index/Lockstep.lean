import Rollup.Proofs.Index.Driving
import Rollup.Proofs.Index.Reopening
import Mathlib.Logic.Relation

/-!
# Lockstep — the trees of an index agree with each other

A row of the map entry table stands for a blob in the bucket of its hash, for an entry in each of
the two index trees, and for a recorded group key; and nothing else is in these trees
(`Snapshot.Lockstep`).  Every call of an index keeps it so inside its transaction, whatever it
answers (`locked_call`).  So it holds of all that a transaction shows on its way and of all that is
ever committed, be it by batches or by transactions driven by hand (`trees_in_lockstep`).
-/

namespace Rollup

open Rollup.Action Update

/-! ### The trees -/

namespace Snapshot

/-- The map entry table of an index has the row of an entry. -/
def HasRow (s : Snapshot) (index : String) (e : Entry) : Prop :=
  ∃ row, (EntryTable.toRow e).encode = .ok row ∧
    s.cell (entryTable index) e.etag.encode = some row

/-- The trees of an index are in lockstep with each other and with its counter. -/
structure Lockstep (s : Snapshot) (index : String) (counter : Etag) : Prop where
  /-- The table has rows only, each under its etag. -/
  rows : ∀ k, (s.cell (entryTable index) k).isSome = true →
    ∃ e, s.HasRow index e ∧ k = e.etag.encode
  /-- A bucket has a blob for each row of its hash, under the same etag, and no others. -/
  blobs : ∀ hash k, (s.cell (bucketTree index hash) k).isSome = true ↔
    ∃ e, s.HasRow index e ∧ e.hash = hash ∧ k = e.etag.encode
  /-- No etag is in two buckets. -/
  single : ∀ k hash hash', (s.cell (bucketTree index hash) k).isSome = true →
    (s.cell (bucketTree index hash') k).isSome = true → hash = hash'
  /-- The index by document key has an entry for each row, and no others. -/
  documents : ∀ entry key, s.cell (Site.documents.tree index) entry = some key ↔
    ∃ e, s.HasRow index e ∧ key = e.etag.encode ∧
      EntryTable.byDocument.entry e.document key = .ok entry
  /-- So has the index by hash. -/
  hashes : ∀ entry key, s.cell (Site.hashes.tree index) entry = some key ↔
    ∃ e, s.HasRow index e ∧ key = e.etag.encode ∧
      EntryTable.byHash.entry e.hash.encode key = .ok entry
  /-- A group key is recorded for each bucket that is not empty, and for no other hash. -/
  groupKeys : ∀ k, (s.cell (groupKeyTree index) k).isSome = true ↔
    ∃ hash, k = hash.encode ∧ ∃ k', (s.cell (bucketTree index hash) k').isSome = true
  /-- The stored last etag is not before any row's, nor behind the counter. -/
  last : ∃ last : Etag, s.cell (metaTree index) Index.lastEtagKey = some last.encode ∧
    (∀ e, s.HasRow index e → e.etag.toNat ≤ last.toNat) ∧ last.toNat ≤ counter.toNat

end Snapshot

namespace Contents.Holds

variable {index : String} {c : Contents} {s : Snapshot}

theorem hasRow_iff (h : c.Holds index s) (e : Entry) :
    s.HasRow index e ↔ c.rows e.etag = some ⟨e.document, e.hash⟩ := by
  have hcell := h.table.cell e.etag.encode
  rw [EntryTable.rowsOf_encode] at hcell
  constructor
  · rintro ⟨stored, hstored, hrow⟩
    obtain ⟨row, hmap, hrow⟩ := (hcell stored).1 hrow
    obtain ⟨m, hm, rfl⟩ := Option.map_eq_some_iff.1 hmap
    -- two rows that are stored the same are the same
    have hsame := Row.decode_of_encode hstored
    rw [Row.decode_of_encode hrow] at hsame
    have he := EntryTable.toRow_inj (Except.ok.inj hsame)
    rw [hm, ← he]
    rfl
  · intro hrow
    have hstored : EntryTable.rowsOf c.rows e.etag.encode = some (EntryTable.toRow e) := by
      rw [EntryTable.rowsOf_encode, hrow]
      rfl
    obtain ⟨stored, hform⟩ := (h.table.fits hstored).stored
    exact ⟨stored, hform, (hcell stored).2 ⟨_, by rw [hrow]; rfl, hform⟩⟩

/-- The rows of the table are the rows of the contents. -/
theorem exists_row_iff (h : c.Holds index s) {P : Bytes → Row → Prop} :
    (∃ key row, EntryTable.rowsOf c.rows key = some row ∧ P key row) ↔
      ∃ e, s.HasRow index e ∧ P e.etag.encode (EntryTable.toRow e) := by
  constructor
  · rintro ⟨key, row, hrow, hP⟩
    obtain ⟨etag, m, rfl, hm, rfl⟩ := EntryTable.rowsOf_eq_some_iff.1 hrow
    exact ⟨EntryTable.entryOf etag m, (h.hasRow_iff _).2 hm, hP⟩
  · rintro ⟨e, he, hP⟩
    exact ⟨_, _, EntryTable.rowsOf_eq_some_iff.2 ⟨e.etag, _, rfl, (h.hasRow_iff e).1 he, rfl⟩, hP⟩

theorem blob_iff (h : c.Holds index s) (hl : c.Lockstep) (hash : GroupHash) (k : Bytes) :
    (s.cell (bucketTree index hash) k).isSome = true ↔
      ∃ e, s.HasRow index e ∧ e.hash = hash ∧ k = e.etag.encode := by
  rw [h.bucket_eq, Option.isSome_iff_exists]
  simp only [cellsOf_eq_some_iff Etag.decode_eq_ok_iff]
  constructor
  · rintro ⟨blob, etag, rfl, hblob⟩
    obtain ⟨m, hm, rfl⟩ := (hl.blobs hash etag).1 (by rw [hblob]; rfl)
    exact ⟨EntryTable.entryOf etag m, (h.hasRow_iff _).2 hm, rfl, rfl⟩
  · rintro ⟨e, he, rfl, rfl⟩
    obtain ⟨blob, hblob⟩ := Option.isSome_iff_exists.1
      ((hl.blobs e.hash e.etag).2 ⟨_, (h.hasRow_iff e).1 he, rfl⟩)
    exact ⟨blob, e.etag, rfl, hblob⟩

/-- The entries of an index tree are those of the rows. -/
theorem entry_iff (h : c.Holds index s) {by' : IndexSchema}
    (hmem : by' ∈ (EntryTable.schema index).indexes) (entry key : Bytes) :
    s.cell ((EntryTable.schema index).indexTree by') entry = some key ↔
      ∃ e, s.HasRow index e ∧ key = e.etag.encode ∧
        by'.entry ((EntryTable.toRow e).column by'.column) key = .ok entry := by
  rw [h.table.entry by' hmem]
  have hrow := h.exists_row_iff (P := fun key' row =>
    key = key' ∧ by'.entry (row.column by'.column) key = .ok entry)
  rw [← hrow]
  constructor
  · rintro ⟨row, hrow, hentry⟩
    exact ⟨key, row, hrow, rfl, hentry⟩
  · rintro ⟨_, row, hrow, rfl, hentry⟩
    exact ⟨row, hrow, hentry⟩

/-- **Contents in lockstep** put the trees in lockstep. -/
theorem lockstep (h : c.Holds index s) (hl : c.Lockstep) {counter : Etag}
    (hcounter : c.last.toNat ≤ counter.toNat) : s.Lockstep index counter where
  rows k hk := by
    obtain ⟨stored, hstored⟩ := Option.isSome_iff_exists.1 hk
    obtain ⟨row, hrow, -⟩ := (h.table.cell k stored).1 hstored
    exact (h.exists_row_iff (P := fun key _ => k = key)).1 ⟨k, row, hrow, rfl⟩
  blobs := h.blob_iff hl
  single k hash hash' hk hk' := by
    obtain ⟨e, he, rfl, rfl⟩ := (h.blob_iff hl hash k).1 hk
    obtain ⟨e', he', rfl, heq⟩ := (h.blob_iff hl hash' _).1 hk'
    -- an etag has one row
    have hrow := (h.hasRow_iff e').1 he'
    rw [← Etag.encode_inj.1 heq, (h.hasRow_iff e).1 he] at hrow
    exact congrArg Mapping.hash (Option.some.inj hrow)
  documents entry key := by
    rw [← EntryTable.indexTree_byDocument]
    exact h.entry_iff (by simp [EntryTable.schema_indexes]) entry key
  hashes entry key := by
    rw [← EntryTable.indexTree_byHash]
    exact h.entry_iff (by simp [EntryTable.schema_indexes]) entry key
  groupKeys k := by
    have hcell : s.cell (groupKeyTree index) k = cellsOf GroupHash.decode c.groupKeys k :=
      h.cell .groupKeys Site.not_inTable_groupKeys k
    rw [hcell, Option.isSome_iff_exists]
    simp only [cellsOf_eq_some_iff GroupHash.decode_eq_ok_iff]
    have hocc : ∀ hash, (∃ k', (s.cell (bucketTree index hash) k').isSome = true) ↔
        c.Occupied hash := fun hash => by
      simp only [h.bucket_eq, Option.isSome_iff_exists, Contents.Occupied,
        cellsOf_eq_some_iff Etag.decode_eq_ok_iff]
      constructor
      · rintro ⟨_, blob, etag, -, hblob⟩
        exact ⟨etag, blob, hblob⟩
      · rintro ⟨etag, blob, hblob⟩
        exact ⟨_, blob, etag, rfl, hblob⟩
    constructor
    · rintro ⟨key, hash, rfl, hkey⟩
      exact ⟨hash, rfl, (hocc hash).2 ((hl.groupKeys hash).1 (by rw [hkey]; rfl))⟩
    · rintro ⟨hash, rfl, hbucket⟩
      obtain ⟨key, hkey⟩ := Option.isSome_iff_exists.1
        ((hl.groupKeys hash).2 ((hocc hash).1 hbucket))
      exact ⟨key, hash, rfl, hkey⟩
  last := ⟨c.last, h.last_eq, fun e he => hl.bounded _ _ ((h.hasRow_iff e).1 he), hcounter⟩

end Contents.Holds

/-! ### Calls -/

/-- The trees that an update shows are in lockstep. -/
structure Update.Locked (name : String) (u : Update) : Prop where
  index : u.index = name
  shows : ∃ c : Contents, Shows c u ∧ c.Lockstep

theorem Update.Locked.lockstep {name : String} {u : Update} (h : u.Locked name) :
    u.snapshot.Lockstep name u.lastEtag := by
  obtain ⟨hindex, c, hshows, hl⟩ := h
  exact hindex ▸ hshows.holds.lockstep hl hshows.counter

/-- A call whose document key can be stored. -/
def Index.Call.Short : Index.Call → Prop
  | .map document => document.key.length < Bytes.capacity 4
  | .remove _ => True

namespace Index

variable {ix : Index} {u : Update}

/-- A document that cannot be mapped leaves everything as it was. -/
theorem eq_of_mapDocument_error (h : u.Locked ix.name) {document : Document}
    (hshort : document.key.length < Bytes.capacity 4) {e : IndexError} {u' : Update}
    (hexec : (ix.mapDocument document).exec u = (.error e, u')) : u' = u := by
  obtain ⟨hindex, c, hshows, hl⟩ := h
  rcases exec_mapDocument hshows (hshows.rows_next hl) hindex document with
    ⟨e, he⟩ | ⟨hlong, -⟩ | ⟨_, _, _, _, _, _, _, _, -, -, -, he, -⟩
  · rw [he] at hexec
    cases hexec
    rfl
  · exact absurd hshort hlong
  · rw [he] at hexec
    cases hexec

/-- **A call keeps lockstep**, whatever it answers. -/
theorem locked_call (h : u.Locked ix.name) {c : Call} (hshort : c.Short) :
    (ix.call u c).Locked ix.name := by
  obtain ⟨hindex, contents, hshows, hl⟩ := h
  cases c with
  | map document =>
      rw [call_map]
      rcases exec_mapDocument hshows (hshows.rows_next hl) hindex document with
        ⟨e, he⟩ | ⟨hlong, -⟩ | ⟨_, _, _, _, etag, _, _, _, -, -, hnext, he, hshows'⟩
      · rw [he]
        exact ⟨hindex, contents, hshows, hl⟩
      · exact absurd hshort hlong
      · rw [he]
        exact ⟨hindex, _, hshows', Contents.lockstep_enter hl (hshows.lt_next hnext) _ _⟩
  | remove key =>
      rw [call_remove]
      rcases exec_removeDocument hshows hl hindex key with
        ⟨e, he⟩ | ⟨entries, u', -, he, hmoves⟩ <;> rw [he]
      · exact ⟨hindex, contents, hshows, hl⟩
      · exact ⟨hmoves.index.trans hindex, _, hmoves.shows, hmoves.lockstep⟩

theorem locked_calls (h : u.Locked ix.name) {list : List Call} (hshort : ∀ c ∈ list, c.Short) :
    (ix.calls u list).Locked ix.name :=
  ix.calls_induction (fun _ hc _ hu => locked_call hu (hshort _ hc)) h

/-- Before such a document could be mapped, its removal fails. -/
theorem short_of_untilFailure (ix : Index) (u : Update) (changes : List Change) :
    ∀ c ∈ ix.untilFailure u (changes.flatMap Change.calls), c.Short := by
  induction changes generalizing u with
  | nil => exact fun c hc => (by cases hc)
  | cons change changes ih =>
      cases change with
      | delete key =>
          rw [List.flatMap_cons, Change.calls, List.singleton_append, untilFailure]
          split
          · exact List.forall_mem_cons.2 ⟨trivial, ih _⟩
          · exact List.forall_mem_singleton.2 trivial
      | put document =>
          rw [List.flatMap_cons, Change.calls, List.cons_append, List.singleton_append,
            untilFailure]
          split
          · next hremove =>
            have hshort : document.key.length < Bytes.capacity 4 := by
              by_contra hlong
              obtain ⟨e, he⟩ := @EntryTable.ofDocument_of_long ix.name u.snapshot document.key hlong
              have hview : (Update.view (EntryTable.ofDocument ix.name · document.key)).exec u =
                  (.error e, u) := by
                rw [Update.view, exec_bind_ok (exec_get u), exec_lift, he]
              rw [perform, exec_map, removeDocument, exec_bind_error hview] at hremove
              cases hremove
            refine List.forall_mem_cons.2 ⟨trivial, ?_⟩
            rw [untilFailure]
            split
            · exact List.forall_mem_cons.2 ⟨hshort, ih _⟩
            · exact List.forall_mem_singleton.2 hshort
          · exact List.forall_mem_singleton.2 trivial

end Index

/-! ### Runs -/

namespace Live

variable {β σ : Type} {name : String} {live live' : Live β σ}

/-- The committed trees of an index are in lockstep. -/
structure Locked (name : String) (live : Live β σ) : Prop where
  index : live.index.name = name
  holds : ∃ c : Contents, c.Holds name live.committed ∧ c.Lockstep ∧
    c.last.toNat ≤ live.index.lastEtag.toNat

theorem Locked.lockstep (h : live.Locked name) :
    live.committed.Lockstep name live.index.lastEtag := by
  obtain ⟨-, c, hholds, hl, hcounter⟩ := h
  exact hholds.lockstep hl hcounter

/-- A transaction is begun in lockstep. -/
theorem Locked.start (h : live.Locked name) : live.start.Locked live.index.name := by
  obtain ⟨rfl, c, hholds, hl, hcounter⟩ := h
  exact ⟨rfl, c, ⟨hholds, fun _ ho => (by cases ho), hcounter⟩, hl⟩

theorem Locked.calls (h : live.Locked name) {list : List Index.Call}
    (hshort : ∀ c ∈ list, c.Short) :
    (live.index.calls live.start list).Locked live.index.name :=
  Index.locked_calls h.start hshort

/-- A batch does not get to map a document whose key cannot be stored. -/
theorem short_of_attempt (live : Live β σ) (changes : List Change) :
    ∀ c ∈ (live.attempt changes).1, c.Short := by
  rw [attempt]
  split
  · exact fun c hc => (by cases hc)
  · exact Index.short_of_untilFailure live.index live.start changes

variable [Backend β]

/-- **A transaction** keeps lockstep, be it driven by hand or by a batch. -/
theorem Locked.transacts (h : live.Locked name) {list : List Index.Call}
    (hshort : ∀ c ∈ list, c.Short) {ending : Transaction.Ending}
    (ht : Transacts live list ending live') : live'.Locked name := by
  refine ⟨ht.name.trans h.index, ?_⟩
  rcases ht.committed with ⟨hcommitted, hlast⟩ | hcommitted
  · rw [hcommitted, hlast]
    obtain ⟨hindex, c, hshows, hl⟩ := h.calls hshort
    exact ⟨c, h.index ▸ hindex ▸ hshows.holds, hl, hshows.counter⟩
  · rw [hcommitted]
    obtain ⟨-, c, hholds, hl, hcounter⟩ := h
    exact ⟨c, hholds, hl, Nat.le_trans hcounter ht.lastEtag_le⟩

/-- A handle given up for another one on the same trees. -/
structure Reloaded (live : Live β σ) (config : Config) (live' : Live β σ) : Prop where
  committed : live'.committed = live.committed
  load : Index.ofSnapshot live.index.name config live.committed = .ok live'.index

/-- What can happen to an index: a batch is run, a transaction is driven by hand, or the index is
opened anew. -/
inductive Turn (live : Live β σ) : Live β σ → Prop where
  | batch (sink : Sink σ) (changes : List Change) : Turn live ((runBatch sink changes).exec live).2
  | drive (list : List Index.Call) (hshort : ∀ c ∈ list, c.Short) (ending : Transaction.Ending) :
      Turn live (live.drive list ending)
  | reload {config : Config} {live' : Live β σ} (h : Reloaded live config live') : Turn live live'

/-- **Every turn keeps lockstep.** -/
theorem Locked.turn (h : live.Locked name) (hturn : Turn live live') : live'.Locked name := by
  cases hturn with
  | batch sink changes =>
      exact h.transacts (short_of_attempt live changes) (transacts_runBatch sink live changes)
  | drive list hshort ending => exact h.transacts hshort (transacts_drive live list ending)
  | reload hreload =>
      obtain ⟨rfl, c, hholds, hl, -⟩ := h
      refine ⟨(Index.name_of_ofSnapshot hreload.load).1, c, ?_, hl, ?_⟩
      · rw [hreload.committed]
        exact hholds
      · exact Index.lastEtag_of_ofSnapshot hholds.last_eq hreload.load

theorem Locked.turns (h : live.Locked name) (hrun : Relation.ReflTransGen Turn live live') :
    live'.Locked name := by
  induction hrun with
  | refl => exact h
  | tail _ hturn ih => exact ih.turn hturn

/-- A new index is in lockstep. -/
theorem locked_of_create {d : Definition} {config : Config} {host host' : Host β} {ix : Index}
    (hvacant : host.env.committed.Vacant d.name)
    (hcreate : (Index.create d config).exec host = (.ok ix, host')) (state : σ) :
    (ofHost host' ix state).Locked d.name := by
  obtain ⟨-, hix, -⟩ := Index.create_eq_ok hcreate
  obtain ⟨stored, -, hat⟩ := Index.at_of_create hvacant hcreate state
  have hname : (ofHost host' ix state).index.name = d.name := by rw [hix]; rfl
  exact ⟨hname, _, hname ▸ hat.holds, hat.lockstep, hat.counter⟩

/-- **Buckets, map entries and group keys are in lockstep**, in all that is ever committed, and in
what a transaction shows after any calls, be they made by hand or by a batch.  A document that
cannot be mapped leaves nothing behind. -/
theorem trees_in_lockstep {d : Definition} {config : Config} {host host' : Host β} {ix : Index}
    (hvacant : host.env.committed.Vacant d.name)
    (hcreate : (Index.create d config).exec host = (.ok ix, host')) (state : σ) {live : Live β σ}
    (hrun : Relation.ReflTransGen Turn (ofHost host' ix state) live) :
    live.committed.Lockstep d.name live.index.lastEtag ∧
    (∀ list : List Index.Call, (∀ c ∈ list, c.Short) →
      let u := live.index.calls live.start list
      u.snapshot.Lockstep d.name u.lastEtag ∧
        ∀ document : Document, document.key.length < Bytes.capacity 4 → ∀ e u',
          (live.index.mapDocument document).exec u = (.error e, u') → u' = u) ∧
    ∀ (changes : List Change) (n : Nat),
      let list := live.callsOf changes
      let u := live.index.calls live.start (list.take n)
      u.snapshot.Lockstep d.name u.lastEtag ∧
        (live.stage changes).2 = live.index.calls live.start list := by
  have hlive := (locked_of_create hvacant hcreate state).turns hrun
  refine ⟨hlive.lockstep, fun list hshort => ?_,
    fun changes n => ⟨?_, (live.stage_calls changes).1⟩⟩
  · have hu := hlive.calls hshort
    exact ⟨hlive.index ▸ hu.lockstep, fun document hdocument e u' hexec =>
      Index.eq_of_mapDocument_error hu hdocument hexec⟩
  · exact hlive.index ▸ (hlive.calls fun c hc =>
      Index.short_of_untilFailure _ _ _ c (List.mem_of_mem_take hc)).lockstep

theorem trees_in_lockstep_of_calls :
    ∃ ix host', (Index.create Index.minimal {}).exec ⟨.fresh (Memory.mk []), #[]⟩ =
        (.ok ix, host') ∧
      let live := ((runBatch Sink.discard [.put ⟨[1], .null⟩]).exec (ofHost host' ix ())).2.drive
        [.remove [1], .map ⟨[2], .null⟩, .map ⟨[2], .bool true⟩] (.commit true)
      live.committed.Lockstep "i" live.index.lastEtag := by
  obtain ⟨host', hcreate⟩ := Index.exec_create_minimal {}
  refine ⟨_, host', hcreate, ?_⟩
  have hshort : ∀ c ∈ ([.remove [1], .map ⟨[2], .null⟩, .map ⟨[2], .bool true⟩] :
      List Index.Call), c.Short := by simp [Index.Call.Short, Bytes.capacity]
  have hrun : Relation.ReflTransGen Turn (ofHost host' ⟨Index.minimal, {}, .zero, {}⟩ ()) _ :=
    .tail (.single (.batch Sink.discard [.put ⟨[1], .null⟩])) (.drive _ hshort (.commit true))
  exact (trees_in_lockstep (Snapshot.vacant_empty _) hcreate () hrun).1

end Live

end Rollup
