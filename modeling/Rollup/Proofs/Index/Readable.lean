import Rollup.Proofs.Index.Deliveries
import Rollup.Proofs.Index.Outputs
import Rollup.Proofs.Index.Rebuild
import Rollup.Proofs.Index.Reduction
import Rollup.Proofs.Value.Sorting

/-!
# Reading back — what was committed, and the decoder

A document can be put when its projections can be written, and not all that can be written can be
read: the decoder refuses a map with two keys that are written alike, and forms beyond its limits
(`Value.Readable`).  So a bucket is read just when every mapped projection in it is readable, each
of them then in canonical order, and a recorded key when the projection that it was written from is
(`Ledger.ReadBack`).

A batch that reduces reads the groups that it touched before it commits, so it leaves nothing behind
that cannot be read.  When batches do not reduce, reducing everything is what fails
(`Live.batches_read_back`).
-/

namespace Rollup

open Rollup.Action

/-! ### Where the recorded keys are from -/

namespace Contents

/-- Each recorded key is that of one of these documents, in its own group. -/
def Founded (ix : Index) (puts : Value → Prop) (c : Contents) : Prop :=
  ∀ hash key, c.groupKeys hash = some key →
    ∃ data group, puts data ∧ ix.groupOf data = .ok (group, key, hash)

variable {ix : Index} {puts : Value → Prop} {c c' : Contents}

theorem groupKeys_of_remove {etag : Etag} {hash k : GroupHash} {key : Bytes}
    (h : (c.remove etag hash).groupKeys k = some key) : c.groupKeys k = some key := by
  rcases eq_or_ne k hash with rfl | hne
  · rw [groupKeys_remove_self] at h
    split at h
    · exact h
    · cases h
  · rwa [groupKeys_remove_of_ne c etag hash hne] at h

theorem Founded.removeAll (h : c.Founded ix puts) (entries : List Entry) :
    (c.removeAll entries).Founded ix puts := by
  induction entries generalizing c with
  | nil => exact h
  | cons e entries ih => exact ih fun hash key hkey => h hash key (groupKeys_of_remove hkey)

theorem Founded.enter (h : c.Founded ix puts) {data group : Value} {key : Bytes} {hash : GroupHash}
    (hputs : puts data) (hgroup : ix.groupOf data = .ok (group, key, hash)) (etag : Etag)
    (document : DocumentKey) (blob : Bytes) :
    (c.enter etag ⟨document, hash⟩ blob key).Founded ix puts := by
  intro k recorded hk
  rw [groupKeys_enter] at hk
  split at hk
  · next e =>
    obtain rfl : k = hash := e
    -- a key that is recorded already stays
    cases hold : c.groupKeys k with
    | some old =>
        rw [hold] at hk
        cases hk
        exact h k old hold
    | none =>
        rw [hold] at hk
        cases hk
        exact ⟨data, group, hputs, hgroup⟩
  · exact h k recorded hk

theorem Founded.appliedAll {changes : List Change} {result : BatchResult}
    (happlied : Index.AppliedAll ix changes c c' result) (h : c.Founded ix puts)
    (hputs : ∀ document, .put document ∈ changes → puts document.data) : c'.Founded ix puts := by
  induction happlied with
  | nil => exact h
  | cons hfirst _ ih =>
      refine ih ?_ fun document hmem => hputs document (List.mem_cons_of_mem _ hmem)
      cases hfirst with
      | put _ hgroup _ _ =>
          exact (h.removeAll _).enter (hputs _ List.mem_cons_self) hgroup _ _ _
      | delete _ => exact h.removeAll _

/-- Blobs and recorded keys are no longer than the lengths that can be written. -/
structure Short (c : Contents) : Prop where
  blobs : ∀ hash etag blob, c.blobs hash etag = some blob → blob.length < Bytes.capacity 8
  groupKeys : ∀ hash key, c.groupKeys hash = some key → key.length < Bytes.capacity 8

/-- What a commit changes fits the log, so it is short. -/
theorem Short.of_cells {index : String} {s t : Snapshot} (h : c.Short) (hs : c.Holds index s)
    (ht : c'.Holds index t)
    (hcell : ∀ n k v, t.cell n k = some v → s.cell n k = some v ∨ v.length < Bytes.capacity 4) :
    c'.Short where
  blobs hash etag blob hb := by
    have hb' := (ht.bucket_eq hash etag.encode).trans
      ((cellsOf_encode Etag.decode_eq_ok_iff etag).trans hb)
    rcases hcell _ _ _ hb' with hold | hlt
    · rw [hs.bucket_eq, cellsOf_encode Etag.decode_eq_ok_iff] at hold
      exact h.blobs hash etag blob hold
    · exact Nat.lt_trans hlt (by decide)
  groupKeys hash key hkey := by
    rcases hcell _ _ _ ((ht.groupKey_eq hash).trans hkey) with hold | hlt
    · rw [hs.groupKey_eq] at hold
      exact h.groupKeys hash key hold
    · exact Nat.lt_trans hlt (by decide)

end Contents

/-! ### What is read of contents -/

namespace Index

variable {ix : Index} {puts : Value → Prop} {c : Contents} {s : Snapshot} {hash : GroupHash}

theorem contribution_eq_ok_iff {data : Value} {blob : Bytes} :
    ix.contribution data = .ok (hash, blob) ↔
      (∃ group key, ix.groupOf data = .ok (group, key, hash)) ∧
        (ix.definition.mapped data).encode = .ok blob := by
  constructor
  · intro h
    obtain ⟨⟨group, key, hash'⟩, hgroup, h⟩ := bind_eq_ok_iff.1 h
    obtain ⟨blob', hblob, h⟩ := bind_eq_ok_iff.1 h
    cases h
    exact ⟨⟨group, key, hgroup⟩, mapError_eq_ok_iff.1 hblob⟩
  · rintro ⟨⟨group, key, hgroup⟩, hblob⟩
    exact contribution_eq_ok hgroup hblob

theorem bucketIn_isOk_iff (h : c.Holds ix.name s) : (∃ found, ix.bucketIn s hash = .ok found) ↔
    ∀ etag blob, c.blobs hash etag = some blob → ∃ v, Value.decode blob = .ok v := by
  rw [bucketIn, Bucket.entries_eq, mapM_isOk_iff]
  simp only [Snapshot.mem_entries_treeAt, Prod.forall]
  show (∀ k blob, s.cell (bucketTree ix.name hash) k = some blob → _) ↔ _
  simp only [h.bucket_eq, cellsOf_eq_some_iff Etag.decode_eq_ok_iff]
  constructor
  · intro hall etag blob hb
    obtain ⟨⟨_, v⟩, hv⟩ := hall etag.encode blob ⟨etag, rfl, hb⟩
    exact ⟨v, (Bucket.ofStored_eq_ok_iff.1 hv).2⟩
  · rintro hall _ blob ⟨etag, rfl, hb⟩
    obtain ⟨v, hv⟩ := hall etag blob hb
    exact ⟨(etag, v), Bucket.ofStored_eq_ok_iff.2 ⟨rfl, hv⟩⟩

theorem mem_bucketIn_iff (h : c.Holds ix.name s) {found : List (Etag × Value)}
    (hfound : ix.bucketIn s hash = .ok found) {etag : Etag} {v : Value} :
    (etag, v) ∈ found ↔ ∃ blob, c.blobs hash etag = some blob ∧ Value.decode blob = .ok v := by
  rw [Bucket.mem_entries_iff hfound]
  show (∃ blob, s.cell (bucketTree ix.name hash) etag.encode = some blob ∧ _) ↔ _
  rw [h.bucket_eq, cellsOf_encode Etag.decode_eq_ok_iff]

theorem groupKeyIn_eq_ok_iff (h : c.Holds ix.name s) {key : Bytes}
    (hkey : c.groupKeys hash = some key) {found : Option Value} :
    ix.groupKeyIn s hash = .ok found ↔ ∃ v, Value.decode key = .ok v ∧ found = some v := by
  rw [groupKeyIn, lookup_groupKey h, hkey]
  show ((Value.decode key).mapError IndexError.encoding >>= fun v => pure (some v)) =
    .ok found ↔ _
  rw [bind_eq_ok_iff]
  simp only [mapError_eq_ok_iff]
  exact exists_congr fun v => and_congr_right fun _ =>
    ⟨fun e => by cases e; rfl, fun e => by rw [e]; rfl⟩

/-- Everything in a group can be read. -/
def Reads (ix : Index) (s : Snapshot) (hash : GroupHash) : Prop :=
  (∃ entries, ix.bucketIn s hash = .ok entries) ∧ ∃ key, ix.groupKeyIn s hash = .ok key

theorem reads_of_reduceIn {output : Option Value} (h : ix.reduceIn s hash = .ok output) :
    ix.Reads s hash := by
  obtain ⟨entries, key, hentries, hkey, -⟩ := reduceIn_eq_ok_iff.1 h
  exact ⟨⟨entries, hentries⟩, key, hkey⟩

/-- A group that can be read is reduced, unless a total overflows. -/
theorem reduceIn_ne_encoding (h : ix.Reads s hash) (e : EncodingError) :
    ix.reduceIn s hash ≠ .error (.encoding e) := by
  obtain ⟨⟨entries, hentries⟩, key, hkey⟩ := h
  have hreduce : ix.reduceIn s hash = Reduction.reduce ix.definition key (entries.map (·.2)) := by
    rw [reduceIn, hkey]
    show (ix.bucketIn s hash >>= _) = _
    rw [hentries]
    rfl
  intro herror
  obtain ⟨field, -, -, he⟩ := Reduction.reduce_eq_error (hreduce.symm.trans herror)
  cases he

end Index

/-! ### Of a ledger -/

/-- What is read of a ledger after these documents were put. -/
structure Ledger.ReadBack (ledger : Ledger) (ix : Index) (puts : Value → Prop) (s : Snapshot) :
    Prop where
  /-- Each live document has an etag, and a group. -/
  total : ∀ key data, ledger.data key = some data →
    ∃ etag hash blob, ledger.Has key etag data ∧ ix.contribution data = .ok (hash, blob)
  /-- A bucket is read just when all mapped projections in it are readable. -/
  bucket : ∀ hash, (∃ entries, ix.bucketIn s hash = .ok entries) ↔
    ∀ key data blob, ledger.data key = some data →
      ix.contribution data = .ok (hash, blob) → (ix.definition.mapped data).Readable
  /-- They are what is in it, each in canonical order. -/
  entries : ∀ hash entries, ix.bucketIn s hash = .ok entries → ∀ etag v, (etag, v) ∈ entries ↔
    ∃ key data blob, ledger.Has key etag data ∧ ix.contribution data = .ok (hash, blob) ∧
      v = (ix.definition.mapped data).inOrder
  /-- The key of a live group is the group-by projection of some document put into it. -/
  groupKey : ∀ key data hash blob, ledger.data key = some data →
    ix.contribution data = .ok (hash, blob) →
      ∃ founder group form, puts founder ∧ ix.groupOf founder = .ok (group, form, hash) ∧
        ∀ found, ix.groupKeyIn s hash = .ok found ↔ group.Readable ∧ found = some group.inOrder
  /-- It is the document's own, unless another projection that was put shares the hash. -/
  own : ∀ key data group form hash, ledger.data key = some data →
    ix.groupOf data = .ok (group, form, hash) →
      (∀ other group' form', puts other → ix.groupOf other = .ok (group', form', hash) →
        form' = form) →
      ∀ found, ix.groupKeyIn s hash = .ok found ↔ group.Readable ∧ found = some group.inOrder

namespace Index.Mirrors

variable {ix : Index} {ledger : Ledger} {puts : Value → Prop} {c : Contents} {s : Snapshot}

/-- A live document has its blob in the bucket of its group. -/
theorem exists_blob (h : Mirrors ix ledger c) {key : DocumentKey} {data : Value} {hash : GroupHash}
    {blob : Bytes} (hdata : ledger.data key = some data)
    (hc : ix.contribution data = .ok (hash, blob)) : ∃ etag, c.blobs hash etag = some blob := by
  obtain ⟨etag, -, -, hkey, -⟩ := h.total key data hdata
  exact ⟨etag, (h.blobs hash etag blob).2 ⟨key, data, hkey, hc⟩⟩

/-- A live group has a recorded key. -/
theorem exists_groupKey (h : Mirrors ix ledger c) (hl : c.Lockstep) {key : DocumentKey}
    {data : Value} {hash : GroupHash} {blob : Bytes} (hdata : ledger.data key = some data)
    (hc : ix.contribution data = .ok (hash, blob)) :
    ∃ recorded, c.groupKeys hash = some recorded := by
  obtain ⟨etag, hblob⟩ := h.exists_blob hdata hc
  exact Option.isSome_iff_exists.1 ((hl.groupKeys hash).2 ⟨etag, by rw [hblob]; rfl⟩)

/-- A recorded key is read as the projection that was written. -/
theorem groupKeyIn_iff (hholds : c.Holds ix.name s) (hshort : c.Short) {hash : GroupHash}
    {recorded : Bytes} (hrecorded : c.groupKeys hash = some recorded) {group : Value}
    (hgroup : group.encode = .ok recorded) (found : Option Value) :
    ix.groupKeyIn s hash = .ok found ↔ group.Readable ∧ found = some group.inOrder := by
  rw [groupKeyIn_eq_ok_iff hholds hrecorded]
  simp only [Value.decode_of_encode_iff hgroup (hshort.groupKeys hash recorded hrecorded)]
  constructor
  · rintro ⟨v, ⟨hreadable, rfl⟩, hfound⟩
    exact ⟨hreadable, hfound⟩
  · rintro ⟨hreadable, hfound⟩
    exact ⟨_, ⟨hreadable, rfl⟩, hfound⟩

theorem readBack (h : Mirrors ix ledger c) (hholds : c.Holds ix.name s) (hl : c.Lockstep)
    (hfounded : c.Founded ix puts) (hshort : c.Short) : ledger.ReadBack ix puts s where
  total := h.total
  bucket hash := by
    rw [bucketIn_isOk_iff hholds]
    constructor
    · intro hall key data blob hdata hc
      obtain ⟨etag, hblob⟩ := h.exists_blob hdata hc
      exact (Value.decode_isOk_iff (contribution_eq_ok_iff.1 hc).2
        (hshort.blobs hash etag blob hblob)).1 (hall etag blob hblob)
    · intro hall etag blob hblob
      obtain ⟨key, data, hkey, hc⟩ := (h.blobs hash etag blob).1 hblob
      exact (Value.decode_isOk_iff (contribution_eq_ok_iff.1 hc).2
        (hshort.blobs hash etag blob hblob)).2 (hall key data blob hkey.data hc)
  entries hash found hfound etag v := by
    rw [mem_bucketIn_iff hholds hfound]
    constructor
    · rintro ⟨blob, hblob, hv⟩
      obtain ⟨key, data, hkey, hc⟩ := (h.blobs hash etag blob).1 hblob
      rw [Value.decode_of_encode_iff (contribution_eq_ok_iff.1 hc).2
        (hshort.blobs hash etag blob hblob)] at hv
      exact ⟨key, data, blob, hkey, hc, hv.2⟩
    · rintro ⟨key, data, blob, hkey, hc, rfl⟩
      have hblob := (h.blobs hash etag blob).2 ⟨key, data, hkey, hc⟩
      -- the whole bucket was read, and so was this blob
      obtain ⟨v, hv⟩ := (bucketIn_isOk_iff hholds).1 ⟨found, hfound⟩ etag blob hblob
      obtain ⟨-, rfl⟩ := (Value.decode_of_encode_iff (contribution_eq_ok_iff.1 hc).2
        (hshort.blobs hash etag blob hblob)).1 hv
      exact ⟨blob, hblob, hv⟩
  groupKey key data hash blob hdata hc := by
    obtain ⟨recorded, hrecorded⟩ := h.exists_groupKey hl hdata hc
    obtain ⟨founder, group, hputs, hgroup⟩ := hfounded hash recorded hrecorded
    exact ⟨founder, group, recorded, hputs, hgroup,
      groupKeyIn_iff hholds hshort hrecorded (groupOf_eq_ok_iff.1 hgroup).2.1⟩
  own key data group form hash hdata hgroup halone := by
    obtain ⟨hash', blob, hc⟩ := h.contributes hdata
    obtain ⟨⟨group', form', hgroup'⟩, -⟩ := contribution_eq_ok_iff.1 hc
    cases hgroup.symm.trans hgroup'
    obtain ⟨recorded, hrecorded⟩ := h.exists_groupKey hl hdata hc
    obtain ⟨founder, group', hputs, hfounder⟩ := hfounded hash recorded hrecorded
    obtain rfl := halone founder group' recorded hputs hfounder
    exact groupKeyIn_iff hholds hshort hrecorded (groupOf_eq_ok_iff.1 hgroup).2.1

end Index.Mirrors

/-! ### Runs -/

namespace Live

variable {β σ : Type} [Backend β]

/-- A run has come to these contents, and their keys are of documents that were put. -/
structure Recorded (ix : Index) (puts : Value → Prop) (run : Live β σ × Ledger) (c : Contents) :
    Prop extends Reached ix run c where
  founded : c.Founded ix puts
  short : c.Short
  /-- Batches that reduce leave no group that cannot be reduced. -/
  reduces : ix.config.reduceAfterBatch = true →
    ∀ hash, ∃ output, ix.reduceIn run.1.committed hash = .ok output

variable {ix : Index} {puts : Value → Prop} {run : Live β σ × Ledger} {c : Contents}

omit [Backend β] in
theorem Reached.holds_of (h : Reached ix run c) : c.Holds ix.name run.1.committed := by
  have hholds := h.holds.holds
  rwa [Index.name, h.definition] at hholds

/-- **A batch** that is committed adds what the log could take, under keys of its own. -/
theorem batch_recorded (h : Recorded ix puts run c) (sink : Sink σ) {changes : List Change}
    (hputs : ∀ document, .put document ∈ changes → puts document.data) :
    ∃ c', Recorded ix puts (batch sink run changes) c' := by
  rcases batch_cases h.toReached sink changes with
    ⟨hreached, hsame⟩ | ⟨c', update, prepared, live', hcommitted, hreached, hshows⟩
  · exact ⟨c, hreached, h.founded, h.short, hsame ▸ h.reduces⟩
  · obtain ⟨result, happlied, -⟩ := hcommitted.applied
    have hgroupOf : run.1.index.groupOf = ix.groupOf := by
      funext data
      rw [Index.groupOf, Index.groupOf, h.definition, h.config]
    have hfounded : c.Founded run.1.index puts := fun hash key hkey => by
      rw [hgroupOf]
      exact h.founded hash key hkey
    have hfaithful := faithful_stage run.1 changes
    rw [hcommitted.stage] at hfaithful
    refine ⟨c', hreached, fun hash key hkey => ?_, ?_, fun hon hash => ?_⟩
    · rw [← hgroupOf]
      exact Contents.Founded.appliedAll happlied hfounded hputs hash key hkey
    · refine h.short.of_cells h.holds_of hreached.holds_of fun n k v hv => ?_
      rw [hshows] at hv
      exact Environment.length_lt_of_commit hfaithful hcommitted.answer hv
    · have hon' : run.1.index.config.reduceAfterBatch = true := by rw [h.config]; exact hon
      obtain ⟨houtputs, hkeys⟩ := Index.outputs_of_outputsOf hcommitted.outputs
      by_cases htouched : update.touched.contains hash = true
      · obtain ⟨e, he, rfl⟩ := List.mem_map.1 ((hkeys hash).2 ⟨hon', htouched⟩)
        refine ⟨e.2, ?_⟩
        rw [hshows, ← Index.reduceIn_of_definition h.definition]
        exact houtputs e he
      · -- a group that was not touched is as it was
        obtain ⟨hgroupKeys, hblobs⟩ := hcommitted.moves.untouched hash htouched
        rw [Index.reduceIn_congr h.holds_of hreached.holds_of hgroupKeys hblobs]
        exact h.reduces hon hash

theorem batches_recorded (h : Recorded ix puts run c) (sink : Sink σ) {list : List (List Change)}
    (hputs : ∀ changes ∈ list, ∀ document, .put document ∈ changes → puts document.data) :
    ∃ c', Recorded ix puts (batches sink run list) c' := by
  induction list generalizing run c with
  | nil => exact ⟨c, h⟩
  | cons changes list ih =>
      obtain ⟨hfirst, hrest⟩ := List.forall_mem_cons.1 hputs
      obtain ⟨c₁, h₁⟩ := batch_recorded h sink hfirst
      exact ih h₁ hrest

/-- A document is put by one of these batches. -/
def Puts (list : List (List Change)) (data : Value) : Prop :=
  ∃ changes ∈ list, ∃ key, .put ⟨key, data⟩ ∈ changes

end Live

/-! ### Reducing everything -/

namespace Live

variable {β σ : Type}

/-- What the answer to reducing groups tells about them. -/
structure Tells (sink : Sink σ) (ix : Index) (s : Snapshot) (hashes : List GroupHash)
    (answer : Except IndexError Nat) : Prop where
  ok : ∀ n, answer = .ok n → ∀ hash ∈ hashes, ∃ output, ix.reduceIn s hash = .ok output
  error : ∀ e, answer = .error e →
    (∃ hash ∈ hashes, ix.reduceIn s hash = .error e) ∨ sink.Refuses e

namespace Tells

variable {sink : Sink σ} {ix : Index} {s : Snapshot} {hash : GroupHash} {hashes : List GroupHash}
  {answer : Except IndexError Nat}

theorem of_error {e : IndexError}
    (h : (∃ hash ∈ hashes, ix.reduceIn s hash = .error e) ∨ sink.Refuses e) :
    Tells sink ix s hashes (.error e) where
  ok _ hn := (by cases hn)
  error _ he := by
    cases he
    exact h

theorem cons {output : Option Value} (houtput : ix.reduceIn s hash = .ok output)
    (h : Tells sink ix s hashes answer) : Tells sink ix s (hash :: hashes) answer where
  ok n hn := List.forall_mem_cons.2 ⟨⟨output, houtput⟩, h.ok n hn⟩
  error e he := (h.error e he).imp_left fun ⟨k, hk, hreduce⟩ =>
    ⟨k, List.mem_cons_of_mem _ hk, hreduce⟩

/-- A group that was written counts. -/
theorem count (h : Tells sink ix s hashes answer) :
    Tells sink ix s hashes (answer.map (· + 1)) := by
  cases answer with
  | error e => exact .of_error (h.error e rfl)
  | ok n => exact ⟨fun _ _ => h.ok n rfl, fun _ he => (by cases he)⟩

end Tells

theorem tells_reduceGroups (sink : Sink σ) (hashes : List GroupHash) (live : Live β σ) :
    ∃ answer state, (reduceGroups sink hashes).exec live = (answer, { live with sink := state }) ∧
      Tells sink live.index live.committed hashes answer := by
  induction hashes generalizing live with
  | nil => exact ⟨.ok 0, live.sink, rfl, by simp, fun _ he => (by cases he)⟩
  | cons hash hashes ih =>
      rw [reduceGroups, exec_bind_ok (exec_get live)]
      cases houtput : live.index.reduceIn live.committed hash with
      | error e =>
          exact ⟨.error e, live.sink, rfl, .of_error (.inl ⟨hash, List.mem_cons_self, houtput⟩)⟩
      | ok output =>
          rw [exec_bind_ok (exec_lift _ _)]
          cases output with
          | none =>
              obtain ⟨answer, state, hexec, h⟩ := ih live
              exact ⟨answer, state, hexec, h.cons houtput⟩
          | some v =>
              obtain ⟨delivered, state, hdeliver, hrefuses⟩ :=
                exec_deliverAll sink [.write hash v] live
              cases delivered with
              | error e =>
                  refine ⟨.error e, state, ?_, .of_error (.inr (hrefuses e rfl))⟩
                  exact exec_bind_error hdeliver _
              | ok _ =>
                  obtain ⟨answer, state', hexec, h⟩ := ih { live with sink := state }
                  refine ⟨answer.map (· + 1), state', ?_, (h.cons houtput).count⟩
                  rw [exec_bind_ok hdeliver]
                  show ((reduceGroups sink hashes >>= fun n => pure (n + 1)).exec
                    { live with sink := state }) = _
                  rw [exec_bind, hexec]
                  cases answer <;> rfl

variable {live : Live β σ} {c : Contents}

theorem tells_reduceAll (h : At c live) (sink : Sink σ) : ∃ hashes,
    (∀ hash, hash ∈ hashes ↔ c.Occupied hash) ∧
      Tells sink live.index live.committed hashes ((reduceAll sink).exec live).1 := by
  obtain ⟨hashes, hfound, hmem⟩ := Index.hashesIn_eq h.holds h.lockstep
  obtain ⟨answer, state, hexec, htells⟩ := tells_reduceGroups sink hashes live
  refine ⟨hashes, hmem, ?_⟩
  rw [reduceAll, exec_bind_ok (exec_get live), hfound, exec_bind_ok (exec_lift _ _), exec_bind,
    hexec]
  cases answer with
  | error e => exact htells
  | ok n => exact htells

end Live

/-! ### After a run -/

namespace Live

variable {β σ : Type} [Backend β]

theorem recorded_of_create {d : Definition} {config : Config} {host host' : Host β} {ix : Index}
    (hvacant : host.env.committed.Vacant d.name)
    (hcreate : (Index.create d config).exec host = (.ok ix, host')) (puts : Value → Prop)
    (state : σ) : ∃ c, Recorded ix puts (ofHost host' ix state, .empty) c := by
  obtain ⟨stored, -, hat⟩ := Index.at_of_create hvacant hcreate state
  have hempty : ∀ hash, ¬ (Contents.initial stored).Occupied hash := fun _ ⟨_, h⟩ => by cases h
  exact ⟨.initial stored,
    { holds := hat
      definition := rfl
      config := rfl
      mirrors := Index.mirrors_empty ix stored .zero _
      founded := fun _ _ h => (by cases h)
      short := ⟨fun _ _ _ h => (by cases h), fun _ _ h => (by cases h)⟩
      reduces := fun _ hash =>
        ⟨none, Index.reduceIn_of_not_occupied hat.holds hat.lockstep (hempty hash)⟩ }⟩

variable {ix : Index} {puts : Value → Prop} {run : Live β σ × Ledger} {c : Contents}

omit [Backend β] in
/-- When everything was reduced, every group can be read. -/
theorem Recorded.reads_of_reduceAll (h : Recorded ix puts run c) {sink : Sink σ} {n : Nat}
    (hn : ((reduceAll sink).exec run.1).1 = .ok n) (hash : GroupHash) :
    ix.Reads run.1.committed hash := by
  obtain ⟨hashes, hmem, htells⟩ := tells_reduceAll h.holds sink
  by_cases hocc : c.Occupied hash
  · obtain ⟨output, houtput⟩ := htells.ok n hn hash ((hmem hash).2 hocc)
    rw [Index.reduceIn_of_definition h.definition] at houtput
    exact Index.reads_of_reduceIn houtput
  · exact Index.reads_of_reduceIn
      (Index.reduceIn_of_not_occupied h.holds_of h.holds.lockstep hocc)

omit [Backend β] in
/-- When every group can be read, the decoder is not what stops reducing. -/
theorem Recorded.refuses_of_reduceAll (h : Recorded ix puts run c)
    (hreads : ∀ hash, ix.Reads run.1.committed hash) {sink : Sink σ} {e : EncodingError}
    (he : ((reduceAll sink).exec run.1).1 = .error (.encoding e)) :
    sink.Refuses (.encoding e) := by
  obtain ⟨hashes, -, htells⟩ := tells_reduceAll h.holds sink
  rcases htells.error _ he with ⟨hash, -, hreduce⟩ | hrefuses
  · rw [Index.reduceIn_of_definition h.definition] at hreduce
    exact absurd hreduce (Index.reduceIn_ne_encoding (hreads hash) e)
  · exact hrefuses

end Live

/-- **What was committed is read back** as far as it is readable.  After any batches through one
handle of a new index a bucket, and the key of a group, can be read just when the projections in it
have no two keys of a map written alike and keep the limits of the decoder; then these projections,
in canonical order, are what is read.  Batches that reduce leave every group so.  Reducing
everything does not get past a group that cannot be read, and when there is none the decoder does
not stop it. -/
theorem Live.batches_read_back {β σ : Type} [Backend β] {d : Definition} {config : Config}
    {host host' : Host β} {ix : Index} (hvacant : host.env.committed.Vacant d.name)
    (hcreate : (Index.create d config).exec host = (.ok ix, host')) (sink : Sink σ) (state : σ)
    (list : List (List Change)) :
    let run := batches sink (ofHost host' ix state, .empty) list
    (ix.definition = d ∧ ix.config = config) ∧
      run.2.ReadBack ix (Puts list) run.1.committed ∧
      (config.reduceAfterBatch = true → ∀ hash, ix.Reads run.1.committed hash) ∧
      (∀ n, ((reduceAll sink).exec run.1).1 = .ok n → ∀ hash, ix.Reads run.1.committed hash) ∧
      ((∀ hash, ix.Reads run.1.committed hash) → ∀ e,
        ((reduceAll sink).exec run.1).1 = .error (.encoding e) → sink.Refuses (.encoding e)) := by
  obtain ⟨-, rfl, -⟩ := Index.create_eq_ok hcreate
  obtain ⟨c₀, hstart⟩ := recorded_of_create hvacant hcreate (Puts list) state
  have hputs : ∀ changes ∈ list, ∀ document, .put document ∈ changes → Puts list document.data :=
    fun changes hchanges document hmem => ⟨changes, hchanges, document.key, hmem⟩
  obtain ⟨c, hrecorded⟩ := batches_recorded hstart sink hputs
  refine ⟨⟨rfl, rfl⟩, ?_, fun hon hash => ?_, fun n hn => hrecorded.reads_of_reduceAll hn,
    fun hreads e he => hrecorded.refuses_of_reduceAll hreads he⟩
  · exact hrecorded.mirrors.readBack hrecorded.holds_of hrecorded.holds.lockstep hrecorded.founded
      hrecorded.short
  · obtain ⟨output, houtput⟩ := hrecorded.reduces hon hash
    exact Index.reads_of_reduceIn houtput

/-- A map that holds a key twice. -/
def Value.twice : Value := .map [(.text "k", .integer 1), (.text "k", .integer 2)]

/-- What is written of a field with such a map. -/
def Value.twiceForm : Bytes := [161, 97, 103, 162, 97, 107, 1, 97, 107, 2]

theorem Value.encode_twice : (Value.map [(.text "g", .twice)]).encode = .ok twiceForm := by
  have htwice : write 1 .twice = .piece [162, 97, 107, 1, 97, 107, 2] := by
    rw [twice, write_map_of_ordered (by decide) (by decide +kernel) (by decide +kernel)]
    rfl
  have hwrite : write 0 (.map [(.text "g", .twice)]) = .piece twiceForm := by
    rw [write_map_of_ordered (by decide) (by decide +kernel) (by decide +kernel),
      List.map_singleton, htwice]
    rfl
  rw [encode, hwrite]
  rfl

theorem Value.not_readable_twice : ¬ (Value.map [(.text "g", .twice)]).Readable := by
  simp [Readable, Distinct, DistinctPairs, twice]

namespace Index

/-- The smallest index, with reducing off. -/
def unreducing : Index := ⟨minimal, { reduceAfterBatch := false }, .zero, {}⟩

theorem groupOf_twice : unreducing.groupOf (.object [("g", .twice)]) =
    .ok (.map [(.text "g", .twice)], Value.twiceForm, GroupHash.ofBytes Value.twiceForm) := by
  have hkey : minimal.groupKey (.object [("g", .twice)]) = .map [(.text "g", .twice)] := by
    decide +kernel
  rw [groupOf, unreducing, hkey, Value.encode_twice]
  rfl

/-- It takes the document in. -/
theorem carriesOut_twice : unreducing.carriesOut minimalTrees .zero
    [[.put ⟨[1], .object [("g", .twice)]⟩]] = true := by
  rw [carriesOut, prepare, applyChanges, applyChange, mapDocument, groupOf_twice]
  decide +kernel

end Index

/-- A document whose group-by projection holds a key twice, put with reducing off: it is live, but
the key of its group cannot be read, and reducing everything does not succeed. -/
theorem Live.batches_read_back_of_twice :
    ∃ ix host', (Index.create Index.minimal { reduceAfterBatch := false }).exec
        ⟨.fresh (Memory.mk []), #[]⟩ = (.ok ix, host') ∧
      let data : Value := .object [("g", .twice)]
      let list : List (List Change) := [[.put ⟨[1], data⟩]]
      let run := batches Sink.discard (ofHost host' ix (), .empty) list
      run.2.ReadBack ix (Puts list) run.1.committed ∧ (∃ etag, run.2.Has [1] etag data) ∧
        ∃ group form hash, ix.groupOf data = .ok (group, form, hash) ∧
          (∀ key, ix.groupKeyIn run.1.committed hash ≠ .ok key) ∧
          ∀ n, ((reduceAll Sink.discard).exec run.1).1 ≠ .ok n := by
  obtain ⟨host', hcreate⟩ := Index.exec_create_minimal { reduceAfterBatch := false }
  refine ⟨Index.unreducing, host', hcreate, ?_⟩
  intro data list run
  obtain ⟨-, hread, -, hreduces, -⟩ :=
    batches_read_back (Snapshot.vacant_empty _) hcreate Sink.discard () list
  -- the batch is committed
  have hdata := data_of_create Sink.willing_discard trivial hcreate
    (Index.committed_of_create_minimal hcreate) Index.carriesOut_twice ()
  have hlive : run.2.data [1] = some data := congrFun hdata [1]
  obtain ⟨etag, -, -, hhas, -⟩ := hread.total _ _ hlive
  have halone : ∀ other group form, Puts list other → Index.unreducing.groupOf other =
      .ok (group, form, GroupHash.ofBytes Value.twiceForm) → form = Value.twiceForm := by
    rintro other group form ⟨changes, hchanges, key, hput⟩ hgroup
    rw [List.mem_singleton.1 hchanges, List.mem_singleton, Change.put.injEq,
      Document.mk.injEq] at hput
    rw [hput.2] at hgroup
    cases Index.groupOf_twice.symm.trans hgroup
    rfl
  have hkey : ∀ key, Index.unreducing.groupKeyIn run.1.committed
      (GroupHash.ofBytes Value.twiceForm) ≠ .ok key := fun key hfound =>
    Value.not_readable_twice
      ((hread.own _ _ _ _ _ hlive Index.groupOf_twice halone key).1 hfound).1
  refine ⟨hread, ⟨etag, hhas⟩, _, _, _, Index.groupOf_twice, hkey, fun n hn => ?_⟩
  obtain ⟨-, key, hfound⟩ := hreduces n hn (GroupHash.ofBytes Value.twiceForm)
  exact hkey key hfound

end Rollup
