import Rollup.Proofs.Index.Carrying
import Rollup.Proofs.Index.Deliveries
import Rollup.Proofs.Index.Outputs
import Rollup.Proofs.Index.Reduction
import Rollup.Proofs.Index.Restarts

/-!
# Deletions — what may keep documents from being taken out

Taking documents out never fails on the trees (`exec_deletes`): what is left of the contents is the
same without their rows and blobs (`Contents.Without`), and every bucket reads as before without
theirs (`bucketIn_without`).  But a batch reduces the groups that it touched, and what is left of a
group may have a total that does not fit.  So documents can be taken out just when the totals of
what is left fit and the record of the commit can be written; otherwise nothing changes
(`deletions_carried_out`).
-/

namespace Rollup

open Rollup.Action BackendView

/-! ### The contents without some documents -/

namespace Contents

/-- What is left of the contents without some documents. -/
structure Without (c : Contents) (keys : List DocumentKey) (c' : Contents) : Prop where
  rows : ∀ f m, c'.rows f = some m ↔ c.rows f = some m ∧ m.document ∉ keys
  blobs : ∀ hash f blob, c'.blobs hash f = some blob ↔
    c.blobs hash f = some blob ∧ ∀ m, c.rows f = some m → m.document ∉ keys
  /-- A group that is left keeps its recorded key. -/
  groupKeys : ∀ hash, c'.Occupied hash → c'.groupKeys hash = c.groupKeys hash

theorem occupied_of_removeAll {c : Contents} {entries : List Entry} {hash : GroupHash}
    (h : (c.removeAll entries).Occupied hash) : c.Occupied hash := by
  obtain ⟨f, hf⟩ := h
  rw [blobs_removeAll] at hf
  split at hf
  · cases hf
  · exact ⟨f, hf⟩

theorem groupKeys_removeAll {c : Contents} {entries : List Entry} {hash : GroupHash}
    (h : (c.removeAll entries).Occupied hash) :
    (c.removeAll entries).groupKeys hash = c.groupKeys hash := by
  induction entries generalizing c with
  | nil => rfl
  | cons e entries ih =>
      have hocc : (c.remove e.etag e.hash).Occupied hash := occupied_of_removeAll h
      refine (@ih (c.remove e.etag e.hash) h).trans ?_
      rcases eq_or_ne hash e.hash with rfl | hne
      · rw [groupKeys_remove_self, if_pos hocc]
      · rw [groupKeys_remove_of_ne c e.etag e.hash hne]

theorem Without.refl (c : Contents) : c.Without [] c := ⟨by simp, by simp, fun _ _ => rfl⟩

/-- One document more. -/
theorem Without.cons {c c' : Contents} (hl : c.Lockstep) {key : DocumentKey}
    {entries : List Entry} (hfinds : c.Finds key entries) {keys : List DocumentKey}
    (h : (c.removeAll entries).Without keys c') : c.Without (key :: keys) c' := by
  -- the rows that go are those of the document
  have hrow : ∀ f m, (c.removeAll entries).rows f = some m ↔
      c.rows f = some m ∧ m.document ≠ key := fun f m => by
    rw [rows_removeAll]
    split
    · next hex =>
      obtain ⟨e, he, rfl⟩ := hex
      have hgone := (hfinds.exists_iff e.hash e.etag).1 ⟨e, he, rfl, rfl⟩
      refine iff_of_false (by simp) ?_
      rintro ⟨hm, hne⟩
      rw [hgone] at hm
      cases hm
      exact hne rfl
    · next hex =>
      refine (and_iff_left_of_imp fun hm hkey => hex ?_).symm
      obtain ⟨e, he, -, hetag⟩ := (hfinds.exists_iff m.hash f).2 (by rw [hm, ← hkey])
      exact ⟨e, he, hetag⟩
  refine ⟨fun f m => ?_, fun hash f blob => ?_, fun hash hocc => ?_⟩
  · rw [h.rows, hrow, List.mem_cons, not_or, and_assoc]
  · rw [h.blobs, blobs_removeAll]
    simp only [hrow, List.mem_cons, not_or]
    split
    · next hex =>
      have hgone := (hfinds.exists_iff hash f).1 hex
      exact iff_of_false (by simp) fun ⟨_, hkeep⟩ => (hkeep _ hgone).1 rfl
    · next hex =>
      refine and_congr_right fun hblob => ⟨fun hkeep m hm => ?_, fun hkeep m hm => (hkeep m hm.1).2⟩
      have hne : m.document ≠ key := by
        rintro rfl
        obtain ⟨m', hm', rfl⟩ := (hl.blobs hash f).1 (by rw [hblob]; rfl)
        rw [hm] at hm'
        cases hm'
        exact hex ((hfinds.exists_iff m.hash f).2 hm)
      exact ⟨hne, hkeep m ⟨hm, hne⟩⟩
  · obtain ⟨f, hf⟩ := hocc
    obtain ⟨blob, hblob⟩ := Option.isSome_iff_exists.1 hf
    have hocc' : (c.removeAll entries).Occupied hash :=
      ⟨f, by rw [((h.blobs hash f blob).1 hblob).1]; rfl⟩
    rw [h.groupKeys hash ⟨f, hf⟩, groupKeys_removeAll hocc']

end Contents

namespace Index

open Update

variable {ix : Index} {c c' : Contents} {s t : Snapshot} {u : Update} {keys : List DocumentKey}
  {hash : GroupHash}

/-- **Taking documents out** of the trees never fails. -/
theorem exec_deletes (h : Shows c u) (hl : c.Lockstep) (hix : u.index = ix.name)
    (hshort : ∀ key ∈ keys, key.length < Bytes.capacity 4) :
    ∃ c' result u', (ix.applyChanges (keys.map .delete)).exec u = (.ok result, u') ∧
      Moves c u c' u' ∧ c.Without keys c' := by
  induction keys generalizing c u with
  | nil => exact ⟨c, {}, u, rfl, .refl h hl, .refl c⟩
  | cons key keys ih =>
      obtain ⟨hkey, hkeys⟩ := List.forall_mem_cons.1 hshort
      obtain ⟨entries, u₁, hfinds, hremove, hmoves⟩ :=
        exec_removeDocument_of_short h hl hix hkey
      obtain ⟨c', result, u', hrest, hmoves', hwithout⟩ :=
        ih hmoves.shows hmoves.lockstep (hmoves.index.trans hix) hkeys
      have hfirst : Action.exec (ExceptT.adapt (ix.nameDocument (.delete key))
          (ix.applyChange (.delete key))) u =
          (.ok { deleted := 1, retracted := entries.length }, u₁) := by
        rw [exec_adapt, applyChange, exec_bind_ok hremove]
        rfl
      refine ⟨c', { deleted := 1, retracted := entries.length } ++ result, u', ?_,
        hmoves.trans hmoves', .cons hl hfinds hwithout⟩
      rw [List.map_cons, applyChanges, exec_bind_ok hfirst, exec_bind_ok hrest]
      rfl

/-! ### Reading what is left -/

/-- The contributions to a group that are left without some documents, in etag order. -/
def leftIn (ix : Index) (s : Snapshot) (keys : List DocumentKey) (hash : GroupHash) :
    Except IndexError (List (Etag × Value)) := do
  let gone ← keys.mapM (ix.entriesIn s)
  let bucket ← ix.bucketIn s hash
  return bucket.filter fun e => e.1 ∉ gone.flatten.map (·.etag)

/-- The entries of documents, by their etags. -/
theorem entriesIn_eq (h : c.Holds ix.name s)
    (hshort : ∀ key ∈ keys, key.length < Bytes.capacity 4) :
    ∃ gone, keys.mapM (ix.entriesIn s) = .ok gone ∧
      ∀ f, f ∈ gone.flatten.map (·.etag) ↔ ∃ m, c.rows f = some m ∧ m.document ∈ keys := by
  obtain ⟨gone, hgone⟩ : ∃ gone, keys.mapM (ix.entriesIn s) = .ok gone :=
    mapM_isOk_iff.2 fun key hkey => by
      obtain ⟨found, hfound, -⟩ := EntryTable.ofDocument_eq h.table (hshort key hkey)
      exact ⟨found, hfound⟩
  refine ⟨gone, hgone, fun f => ?_⟩
  simp only [List.mem_map, List.mem_flatten, mem_of_mapM hgone]
  constructor
  · rintro ⟨e, ⟨found, ⟨key, hkey, hfound⟩, he⟩, rfl⟩
    obtain ⟨found', hfound', hmem, -⟩ := EntryTable.ofDocument_eq h.table (hshort key hkey)
    cases hfound.symm.trans hfound'
    obtain ⟨m, hm, rfl, -⟩ := (hmem e).1 he
    exact ⟨m, hm, hkey⟩
  · rintro ⟨m, hm, hkey⟩
    obtain ⟨found, hfound, hmem, -⟩ := EntryTable.ofDocument_eq h.table (hshort _ hkey)
    exact ⟨_, ⟨found, ⟨_, hkey, hfound⟩, (hmem (EntryTable.entryOf f m)).2 ⟨m, hm, rfl, rfl⟩⟩, rfl⟩

/-- **Every bucket reads as before**, without the contributions of the documents. -/
theorem bucketIn_without (h : c.Holds ix.name s) (h' : c'.Holds ix.name t)
    (hwithout : c.Without keys c') (hshort : ∀ key ∈ keys, key.length < Bytes.capacity 4)
    {bucket : List (Etag × Value)} (hbucket : ix.bucketIn s hash = .ok bucket) :
    ∃ left, ix.leftIn s keys hash = .ok left ∧ ix.bucketIn t hash = .ok left := by
  obtain ⟨gone, hgone, hmem⟩ := entriesIn_eq h hshort
  refine ⟨_, by rw [leftIn, hgone, hbucket]; rfl, ?_⟩
  have hcell : ∀ f blob, t.cell (bucketTree ix.name hash) (Etag.encode f) = some blob ↔
      s.cell (bucketTree ix.name hash) f.encode = some blob ∧
        f ∉ gone.flatten.map (·.etag) := fun f blob => by
    rw [h.bucket_eq, h'.bucket_eq, cellsOf_encode Etag.decode_eq_ok_iff,
      cellsOf_encode Etag.decode_eq_ok_iff, hwithout.blobs, hmem]
    push Not
    rfl
  refine Bucket.entries_filter hbucket (fun f => decide (f ∉ gone.flatten.map (·.etag)))
    (fun k blob hk => ?_) fun f blob hf => ?_
  · have hk : t.cell (bucketTree ix.name hash) k = some blob := hk
    obtain ⟨f, rfl, -⟩ := (cellsOf_eq_some_iff Etag.decode_eq_ok_iff).1
      ((h'.bucket_eq hash k).symm.trans hk)
    exact ((hcell f blob).1 hk).1
  · rw [decide_eq_true_iff]
    exact (hcell f blob).trans (and_iff_right hf)

/-- **The output of what is left** of a group. -/
theorem reduceIn_without (h : c.Holds ix.name s) (h' : c'.Holds ix.name t) (hl' : c'.Lockstep)
    (hwithout : c.Without keys c') (hshort : ∀ key ∈ keys, key.length < Bytes.capacity 4)
    {output : Option Value} (houtput : ix.reduceIn s hash = .ok output) :
    ∃ left key, ix.leftIn s keys hash = .ok left ∧
      ix.reduceIn t hash = Reduction.reduce ix.definition key (left.map (·.2)) := by
  obtain ⟨bucket, key, hbucket, hkey, -⟩ := reduceIn_eq_ok_iff.1 houtput
  obtain ⟨left, hleft, hbucket'⟩ := bucketIn_without h h' hwithout hshort hbucket
  refine ⟨left, key, hleft, ?_⟩
  by_cases hocc : c'.Occupied hash
  · have hkey' : ix.groupKeyIn t hash = .ok key := by
      rw [← hkey, groupKeyIn, groupKeyIn, lookup_groupKey h, lookup_groupKey h',
        hwithout.groupKeys hash hocc]
    have hentries : (Bucket.mk ix.name hash).entries t = .ok left := hbucket'
    rw [reduceIn, hentries, hkey']
    rfl
  · -- nothing is left, and an empty group has no output whatever its key was
    have hnone := reduceIn_of_not_occupied h' hl' hocc
    obtain ⟨left', _, hleft', -, hreduce⟩ := reduceIn_eq_ok_iff.1 hnone
    cases hleft'.symm.trans hbucket'
    have hnil : left.map (·.2) = [] := (Reduction.eq_none_iff hreduce).1 rfl
    rw [hnone, hnil]
    rfl

end Index

namespace Live

open Update

variable {β σ : Type} {live : Live β σ} {c : Contents} {keys : List DocumentKey}

/-! ### What is left of every group can be reduced -/

/-- The totals of every group fit without some documents. -/
def Summable (live : Live β σ) (keys : List DocumentKey) : Prop :=
  ∀ hash, ∃ left, live.index.leftIn live.committed keys hash = .ok left ∧
    Reduction.Sums live.index.definition (left.map (·.2))

/-- The record of a batch can be written. -/
def Recordable (live : Live β σ) (changes : List Change) : Prop :=
  ∃ form, Record.encode (live.stage changes).2.txn.ops.toList = .ok form

/-- An index whose batches reduce, all of whose groups can be reduced. -/
structure Reducible (c : Contents) (live : Live β σ) : Prop where
  contents : At c live
  reduces : live.index.config.reduceAfterBatch = true
  groups : ∀ hash, ∃ output, live.index.reduceIn live.committed hash = .ok output

/-- The contents that an update has moved to are those of the trees that it shows. -/
theorem holds_of_moves {c' : Contents} {u : Update} (h : Moves c live.start c' u) :
    c'.Holds live.index.name u.snapshot := by
  have := h.shows.holds
  rwa [h.index] at this

/-- A group that an update has not touched is reduced as before. -/
theorem Reducible.of_untouched (h : Reducible c live) {c' : Contents} {u : Update}
    (hmoves : Moves c live.start c' u) {hash : GroupHash}
    (htouched : ¬ u.touched.contains hash = true) :
    ∃ output, live.index.reduceIn u.snapshot hash = .ok output := by
  obtain ⟨hkeys, hblobs⟩ := hmoves.untouched hash htouched
  rw [Index.reduceIn_congr h.contents.holds (holds_of_moves hmoves) hkeys hblobs]
  exact h.groups hash

/-- **Outputs after deletions** are there just when the totals of what is left fit; a total that
does not is the only thing that can go wrong. -/
theorem outputsOf_deletes (h : Reducible c live) {c' : Contents} {u : Update}
    (hmoves : Moves c live.start c' u) (hwithout : c.Without keys c')
    (hshort : ∀ key ∈ keys, key.length < Bytes.capacity 4) :
    ((∃ outputs, live.index.outputsOf u = .ok outputs) ↔ live.Summable keys) ∧
      ∀ e, live.index.outputsOf u = .error e →
        ∃ field ∈ live.index.definition.fields, field.aggregate ≠ .first ∧
          e = .overflow field.name := by
  have hreduce : ∀ hash, ∃ left key, live.index.leftIn live.committed keys hash = .ok left ∧
      live.index.reduceIn u.snapshot hash =
        Reduction.reduce live.index.definition key (left.map (·.2)) := fun hash => by
    obtain ⟨output, houtput⟩ := h.groups hash
    exact Index.reduceIn_without h.contents.holds (holds_of_moves hmoves) hmoves.lockstep hwithout
      hshort houtput
  rw [Index.outputsOf, if_pos h.reduces]
  refine ⟨?_, fun e he => ?_⟩
  · rw [mapM_isOk_iff]
    simp only [return_pair_isOk_iff]
    constructor
    · intro hall hash
      obtain ⟨left, key, hleft, hsame⟩ := hreduce hash
      refine ⟨left, hleft, (@Reduction.reduce_isOk_iff _ key _).1 ?_⟩
      rw [← hsame]
      by_cases htouched : u.touched.contains hash = true
      · refine hall hash ?_
        rwa [OrderedMap.mem_keys_iff, ← OrderedMap.contains_eq_isSome]
      · exact h.of_untouched hmoves htouched
    · intro hsums hash _
      obtain ⟨left, key, hleft, hsame⟩ := hreduce hash
      obtain ⟨left', hleft', hfits⟩ := hsums hash
      cases hleft.symm.trans hleft'
      rw [hsame]
      exact Reduction.reduce_isOk_iff.2 hfits
  · obtain ⟨hash, -, hhash⟩ := exists_of_mapM_eq_error he
    obtain ⟨left, key, -, hsame⟩ := hreduce hash
    rw [return_pair_eq_error_iff, hsame] at hhash
    exact Reduction.reduce_eq_error hhash

/-! ### Along a run -/

section

variable [Backend β]

omit [Backend β] in
theorem Reducible.next (h : Reducible c live) {c' : Contents} {live' : Live β σ}
    (hsame : Same live live') (hat : At c' live')
    (hgroups : ∀ hash, ∃ output, live.index.reduceIn live'.committed hash = .ok output) :
    Reducible c' live' where
  contents := hat
  reduces := by rw [hsame.config, h.reduces]
  groups hash := by
    rw [Index.reduceIn_of_definition hsame.definition]
    exact hgroups hash

omit [Backend β] in
/-- It does not matter what the receiver has. -/
theorem Reducible.withSink (h : Reducible c live) (state : σ) :
    Reducible c { live with sink := state } :=
  ⟨⟨h.contents.holds, h.contents.lockstep, h.contents.counter, h.contents.definition⟩, h.reduces,
    h.groups⟩

/-- **A batch** leaves an index whose groups can all be reduced. -/
theorem Reducible.after (h : Reducible c live) (job : Job σ) :
    (live.after job).index.definition = live.index.definition ∧
      (live.after job).index.config = live.index.config ∧
        ∃ c', Reducible c' (live.after job) := by
  obtain ⟨state, hrun⟩ := exec_runBatch job.sink job.changes live
  rw [Live.after, hrun]
  rcases commitBatch_at h.contents job.changes with
    ⟨e, live', hexec, hsame, hcommitted, hat⟩ | ⟨c', update, prepared, live', hcommitted, hexec⟩ <;>
    rw [hexec]
  · refine ⟨hsame.definition, hsame.config, c, (h.next hsame hat fun hash => ?_).withSink state⟩
    rw [hcommitted]
    exact h.groups hash
  · refine ⟨hcommitted.definition, hcommitted.config, c',
      (h.next hcommitted.toSame hcommitted.holds fun hash => ?_).withSink state⟩
    rw [hcommitted.committed]
    by_cases htouched : update.touched.contains hash = true
    · -- it was reduced by the batch
      obtain ⟨hreduce, hkeys⟩ := Index.outputs_of_outputsOf hcommitted.outputs
      obtain ⟨e, he, rfl⟩ := List.mem_map.1 ((hkeys hash).2 ⟨h.reduces, htouched⟩)
      exact ⟨e.2, hreduce e he⟩
    · exact h.of_untouched hcommitted.moves htouched

theorem Reducible.afterAll (h : Reducible c live) (jobs : List (Job σ)) :
    (live.afterAll jobs).index.definition = live.index.definition ∧
      (live.afterAll jobs).index.config = live.index.config ∧
        ∃ c', Reducible c' (live.afterAll jobs) := by
  induction jobs generalizing live c with
  | nil => exact ⟨rfl, rfl, c, h⟩
  | cons job jobs ih =>
      obtain ⟨hdefinition, hconfig, c₁, h₁⟩ := h.after job
      obtain ⟨hdefinition', hconfig', h'⟩ := ih h₁
      exact ⟨hdefinition'.trans hdefinition, hconfig'.trans hconfig, h'⟩

/-- A new index has no groups. -/
theorem reducible_of_create {d : Definition} {config : Config} {host host' : Host β} {ix : Index}
    (hvacant : host.env.committed.Vacant d.name) (hreduces : config.reduceAfterBatch = true)
    (hcreate : (Index.create d config).exec host = (.ok ix, host')) (state : σ) :
    ∃ c, Reducible c (ofHost host' ix state) := by
  obtain ⟨-, hix, -⟩ := Index.create_eq_ok hcreate
  obtain ⟨stored, -, hat⟩ := Index.at_of_create hvacant hcreate state
  refine ⟨.initial stored, hat, ?_, fun hash => ⟨none, ?_⟩⟩
  · show ix.config.reduceAfterBatch = true
    rw [hix]
    exact hreduces
  · exact Index.reduceIn_of_not_occupied hat.holds hat.lockstep fun ⟨_, hf⟩ => (by cases hf)

end

/-! ### Deletions -/

/-- The work of such a batch fails only on a total. -/
theorem stage_deletes (h : Reducible c live)
    (hshort : ∀ key ∈ keys, key.length < Bytes.capacity 4) :
    ∃ c' u, Moves c live.start c' u ∧ c.Without keys c' ∧
      ((∃ prepared, live.stage (keys.map .delete) = (.ok prepared, u)) ∧ live.Summable keys ∨
        ¬ live.Summable keys ∧ ∃ field ∈ live.index.definition.fields, field.aggregate ≠ .first ∧
          live.stage (keys.map .delete) = (.error (.overflow field.name), u)) := by
  obtain ⟨c', result, u, hexec, hmoves, hwithout⟩ :=
    Index.exec_deletes h.contents.shows_start h.contents.lockstep rfl hshort
  obtain ⟨hok, herror⟩ := outputsOf_deletes h hmoves hwithout hshort
  refine ⟨c', u, hmoves, hwithout, ?_⟩
  have hstage : live.stage (keys.map .delete) = (do
      let outputs ← live.index.outputs
      return ⟨{ result with reduced := outputs.length }, outputs⟩ : Update.Step Prepared).exec u :=
    exec_bind_ok hexec _
  rw [exec_bind, Index.exec_outputs] at hstage
  cases houtputs : live.index.outputsOf u with
  | ok outputs =>
      rw [houtputs] at hstage
      exact .inl ⟨⟨_, hstage⟩, hok.1 ⟨outputs, houtputs⟩⟩
  | error e =>
      rw [houtputs] at hstage
      obtain ⟨field, hmem, hop, rfl⟩ := herror e houtputs
      refine .inr ⟨fun hsums => ?_, field, hmem, hop, hstage⟩
      obtain ⟨outputs, hsome⟩ := hok.2 hsums
      rw [houtputs] at hsome
      cases hsome

/-- None of the documents has an entry. -/
theorem entriesIn_of_without {c' : Contents} {ix : Index} {s : Snapshot}
    (hholds : c'.Holds ix.name s) (hwithout : c.Without keys c')
    (hshort : ∀ key ∈ keys, key.length < Bytes.capacity 4) :
    ∀ key ∈ keys, ix.entriesIn s key = .ok [] := by
  intro key hkey
  obtain ⟨found, hfound, hmem, -⟩ := EntryTable.ofDocument_eq hholds.table (hshort key hkey)
  have hnil : found = [] := List.eq_nil_iff_forall_not_mem.2 fun e he => by
    obtain ⟨m, hm, rfl, -⟩ := (hmem e).1 he
    exact ((hwithout.rows e.etag m).1 hm).2 hkey
  rw [hnil] at hfound
  exact hfound

/-- What a batch that takes documents out comes to. -/
structure Deletes (live : Live β σ) (keys : List DocumentKey)
    (answer : Except IndexError BatchResult) (live' : Live β σ) : Prop where
  ok_iff : (∃ result, answer = .ok result) ↔
    live.Summable keys ∧ live.Recordable (keys.map .delete)
  /-- No entry is left for any of the documents. -/
  gone : (∃ result, answer = .ok result) →
    ∀ key ∈ keys, live'.index.entriesIn live'.committed key = .ok []
  overflow : ¬ live.Summable keys → ∃ field ∈ live.index.definition.fields,
    field.aggregate ≠ .first ∧ answer = .error (.overflow field.name)
  unrecorded : live.Summable keys → ¬ live.Recordable (keys.map .delete) →
    ∃ damage, answer = .error (.storage (.corrupted damage))
  unchanged : ∀ e, answer = .error e → live'.committed = live.committed ∧ live'.sink = live.sink

variable [Backend β] [LawfulBackend β]

/-- A batch that is ready, whose record cannot be written. -/
theorem exec_runBatch_of_unrecorded (hsound : Sound live.env.log.backend) (sink : Sink σ)
    {changes : List Change} {prepared : Prepared} {update : Update}
    (hready : live.Ready changes prepared update) {e : StorageError}
    (herror : (live.committing update).1 = .error e) :
    ∃ damage live', (runBatch sink changes).exec live =
        (.error (.storage (.corrupted damage)), live') ∧
      live'.committed = live.committed ∧ live'.sink = live.sink := by
  obtain ⟨damage, rfl⟩ := Environment.corrupted_of_commit hsound herror
  obtain ⟨live', hafter, hexec⟩ := exec_commitBatch_of_ready hready
  rw [herror] at hexec
  have hfaithful := faithful_stage live changes
  rw [hready.stage] at hfaithful
  refine ⟨damage, live', exec_bind_error hexec _, ?_, hafter.sink⟩
  rw [Live.committed, hafter.env]
  exact (Environment.committed_of_commit hfaithful _).2 _ herror

/-- **Taking documents out.** -/
theorem Reducible.deletes (h : Reducible c live) (hsound : Sound live.env.log.backend)
    {sink : Sink σ} (hwilling : sink.Willing)
    (hsize : keys.length ≤ live.index.config.maxBatchSize)
    (hshort : ∀ key ∈ keys, key.length < Bytes.capacity 4) :
    ∃ answer live', (runBatch sink (keys.map .delete)).exec live = (answer, live') ∧
      Deletes live keys answer live' := by
  have hsize : ¬ live.index.config.maxBatchSize < (keys.map Change.delete).length := by
    rwa [List.length_map, Nat.not_lt]
  obtain ⟨c', u, hmoves, hwithout, hend⟩ := stage_deletes h hshort
  rcases hend with ⟨⟨prepared, hstage⟩, hsums⟩ | ⟨hsums, field, hmem, hop, hstage⟩
  · have hready : live.Ready (keys.map .delete) prepared u := ⟨hsize, hstage⟩
    have hrecord : (live.committing u).1 = .ok () ↔ live.Recordable (keys.map .delete) := by
      rw [Recordable, hstage]
      exact Environment.commit_ok_iff hsound
    cases hanswer : (live.committing u).1 with
    | ok _ =>
        obtain ⟨live', hexec, hsame, hcommitted, -⟩ :=
          exec_runBatch_of_ready hwilling hready hanswer
        have hholds : c'.Holds live'.index.name live'.committed := by
          rw [hcommitted, hsame.name]
          exact holds_of_moves hmoves
        exact ⟨.ok prepared.result, live', hexec,
          { ok_iff := iff_of_true ⟨_, rfl⟩ ⟨hsums, hrecord.1 hanswer⟩
            gone := fun _ => entriesIn_of_without hholds hwithout hshort
            overflow := fun h => absurd hsums h
            unrecorded := fun _ h => absurd (hrecord.1 hanswer) h
            unchanged := fun _ h => (by cases h) }⟩
    | error e =>
        obtain ⟨damage, live', hexec, hunchanged⟩ :=
          exec_runBatch_of_unrecorded hsound sink hready hanswer
        have hnot : ¬ live.Recordable (keys.map .delete) := fun h => by
          rw [hrecord.2 h] at hanswer
          cases hanswer
        exact ⟨.error (.storage (.corrupted damage)), live', hexec,
          { ok_iff := iff_of_false (by simp) fun h => hnot h.2
            gone := fun h => (by obtain ⟨_, h⟩ := h; cases h)
            overflow := fun h => absurd hsums h
            unrecorded := fun _ _ => ⟨damage, rfl⟩
            unchanged := fun _ _ => hunchanged }⟩
  · have hwhy : live.hindrance? (keys.map .delete) = some (.overflow field.name) := by
      rw [hindrance?, if_neg hsize, hstage]
    obtain ⟨live', hexec, hquiet⟩ := exec_commitBatch_of_hindrance hwhy
    exact ⟨.error (.overflow field.name), live', exec_bind_error hexec _,
      { ok_iff := iff_of_false (by simp) fun h => hsums h.1
        gone := fun h => (by obtain ⟨_, h⟩ := h; cases h)
        overflow := fun _ => ⟨field, hmem, hop, rfl⟩
        unrecorded := fun h => absurd h hsums
        unchanged := fun _ _ => ⟨congrArg Environment.committed hquiet.env, hquiet.sink⟩ }⟩

/-- **What it takes to delete documents.**  After any run of batches through one handle of a new
index whose batches reduce, on a backend whose calls do not fail, any documents can be deleted just
when every total of what is left of the groups fits, added up in etag order, and the record of the
batch can be written.  Then none of them has an entry any more; otherwise the answer says what does
not fit, and nothing has changed. -/
theorem deletions_carried_out {d : Definition} {config : Config} {host host' : Host β} {ix : Index}
    (hvacant : host.env.committed.Vacant d.name) (hsound : Sound host.env.log.backend)
    (hreduces : config.reduceAfterBatch = true)
    (hcreate : (Index.create d config).exec host = (.ok ix, host')) (state : σ)
    (jobs : List (Job σ)) {sink : Sink σ} (hwilling : sink.Willing)
    (hsize : keys.length ≤ config.maxBatchSize)
    (hshort : ∀ key ∈ keys, key.length < Bytes.capacity 4) :
    let live := (ofHost host' ix state).afterAll jobs
    live.index.definition = d ∧
      ∃ answer live', (runBatch sink (keys.map .delete)).exec live = (answer, live') ∧
        Deletes live keys answer live' := by
  obtain ⟨-, hix, -⟩ := Index.create_eq_ok hcreate
  obtain ⟨c, hnew⟩ := reducible_of_create hvacant hreduces hcreate state
  obtain ⟨hdefinition, hconfig, c', hlive⟩ := hnew.afterAll jobs
  have hstart : (ofHost host' ix state).index = ⟨d, config, .zero, {}⟩ := hix
  rw [hstart] at hdefinition hconfig
  refine ⟨hdefinition, hlive.deletes (sound_afterAll (sound_of_create hsound hcreate state) jobs)
    hwilling ?_ hshort⟩
  rw [hconfig]
  exact hsize

theorem deletions_carried_out_of_minimal :
    ∃ ix host', (Index.create Index.minimal {}).exec ⟨.fresh (Memory.mk []), #[]⟩ =
        (.ok ix, host') ∧
      let live := (ofHost host' ix ()).afterAll
        [⟨Sink.discard, [.put ⟨[1], .null⟩, .put ⟨[2], .null⟩]⟩]
      ∃ answer live', (runBatch Sink.discard [.delete [1]]).exec live = (answer, live') ∧
        Deletes live [[1]] answer live' := by
  obtain ⟨host', hcreate⟩ := Index.exec_create_minimal {}
  have hshort : ∀ key ∈ ([[1]] : List DocumentKey), key.length < Bytes.capacity 4 := by decide
  exact ⟨_, host', hcreate, (deletions_carried_out (Snapshot.vacant_empty _) trivial rfl hcreate ()
    _ Sink.willing_discard (by decide) hshort).2⟩

end Live

/-! ### A document that cannot be deleted alone -/

namespace Index

/-- The smallest definition that adds something up. -/
def summing : Definition :=
  ⟨"i", "c", [⟨"n", ⟨["n"], []⟩, .sum⟩], [⟨"g", ⟨["g"], []⟩, .first⟩]⟩

/-- Its stored form. -/
def summingForm : Bytes :=
  [164, 99, 109, 97, 112, 129, 163, 98, 111, 112, 99, 83, 117, 109, 100, 110, 97, 109, 101, 97, 110,
    100, 112, 97, 116, 104, 97, 110, 100, 110, 97, 109, 101, 97, 105, 104, 103, 114, 111, 117, 112,
    95, 98, 121, 129, 163, 98, 111, 112, 100, 78, 111, 110, 101, 100, 110, 97, 109, 101, 97, 103,
    100, 112, 97, 116, 104, 97, 103, 106, 99, 111, 108, 108, 101, 99, 116, 105, 111, 110, 97, 99]

theorem encode_summing : summing.toValue.encode = .ok summingForm := by
  rw [Definition.encode_toValue]
  decide +kernel

theorem exec_create_summing : ∃ host', (create summing {}).exec ⟨.fresh (Memory.mk []), #[]⟩ =
    (.ok ⟨summing, {}, .zero, {}⟩, host') := by
  have hsmall : ((Record.encodePayload
      (laidOut (.on .empty) "i" summingForm).ops.toList).toOption.any
      fun payload => decide (payload.length < Bytes.capacity 4)) = true := by decide +kernel
  have hname : summing.name = "i" := rfl
  rw [← hname] at hsmall
  exact exec_create_of_short {} trivial rfl (by decide) (by decide) encode_summing hsmall

theorem committed_of_create_summing {host' : Host Memory} {ix : Index}
    (h : (create summing {}).exec ⟨.fresh (Memory.mk []), #[]⟩ = (.ok ix, host')) :
    host'.env.committed = (laidOut (.on .empty) "i" summingForm).working := by
  have hname : summing.name = "i" := rfl
  have hbegin : Environment.begin (.fresh (Memory.mk [])) = .on .empty := rfl
  rw [committed_of_create encode_summing h, hname, hbegin]

/-- A document that contributes a number. -/
def numbered (key : DocumentKey) (n : Int64) : Document := ⟨key, .map [(.text "n", .integer n)]⟩

/-- Four numbers whose sums from the left fit.  Without the first their total fits, but the sum
before the last does not. -/
def summingPuts : List Change :=
  [.put (numbered [1] (-1)), .put (numbered [2] Int64.maxValue), .put (numbered [3] 1),
    .put (numbered [4] (-1))]

/-- The work of a batch that puts them into a new index. -/
def summingStage : Except IndexError Prepared × Update :=
  (prepare ⟨summing, {}, .zero, {}⟩ summingPuts).exec
    (.on "i" (.on (laidOut (.on .empty) "i" summingForm).working) .zero)

/-- The work of the batch that deletes the first of them then. -/
def summingDeletion : Except IndexError Prepared × Update :=
  (prepare ⟨summing, {}, .zero, {}⟩ [.delete [1]]).exec
    (.on "i" (.on summingStage.2.snapshot) summingStage.2.lastEtag)

theorem summing_outcome : (summingStage.1.isOk &&
    (Record.encode summingStage.2.txn.ops.toList).isOk &&
    decide (summingDeletion.1.map (fun _ => ()) = .error (.overflow "n"))) = true := by
  decide +kernel

end Index

namespace Live

/-- Four documents were taken in, and the first cannot be deleted: what the others contribute does
not add up from the left. -/
theorem deletion_refused :
    ({} : Config).reduceAfterBatch = true ∧ 1 ≤ ({} : Config).maxBatchSize ∧
    ∃ ix host', (Index.create Index.summing {}).exec ⟨.fresh (Memory.mk []), #[]⟩ =
        (.ok ix, host') ∧
      ∃ result live, (runBatch Sink.discard Index.summingPuts).exec (ofHost host' ix ()) =
          (.ok result, live) ∧
        ∃ live', (runBatch Sink.discard [.delete [1]]).exec live =
          (.error (.overflow "n"), live') := by
  refine ⟨rfl, by decide, ?_⟩
  have houtcome := Index.summing_outcome
  rw [Bool.and_eq_true, Bool.and_eq_true, decide_eq_true_iff] at houtcome
  obtain ⟨⟨hok, hrecord⟩, hdeletion⟩ := houtcome
  obtain ⟨prepared, hprepared⟩ := exists_of_isOk hok
  obtain ⟨host', hcreate⟩ := Index.exec_create_summing
  have hstage : (ofHost host' (⟨Index.summing, {}, .zero, {}⟩ : Index) ()).stage
      Index.summingPuts = Index.summingStage :=
    stage_eq ⟨rfl, rfl⟩ (Index.committed_of_create_summing hcreate) _
  -- the four are taken in
  have hsize : ¬ ({} : Config).maxBatchSize < Index.summingPuts.length := by decide
  have hready : (ofHost host' (⟨Index.summing, {}, .zero, {}⟩ : Index) ()).Ready Index.summingPuts
      prepared Index.summingStage.2 := ⟨hsize, hstage.trans (Prod.ext hprepared rfl)⟩
  obtain ⟨live, hexec, hsame, hcommitted, hlast⟩ := exec_runBatch_of_ready Sink.willing_discard
    hready ((Environment.commit_ok_iff trivial).2 (exists_of_isOk hrecord))
  refine ⟨_, host', hcreate, _, live, hexec, ?_⟩
  -- the totals are taken before the deletion is committed
  have hdeletion' : live.stage [.delete [1]] = Index.summingDeletion := by
    rw [stage_eq hsame hcommitted, hlast]
    rfl
  have hwhy : live.hindrance? [.delete [1]] = some (.overflow "n") := by
    rw [hindrance?, hdeletion', hsame.config]
    cases hanswer : Index.summingDeletion.1 with
    | ok _ =>
        rw [hanswer] at hdeletion
        cases hdeletion
    | error e =>
        rw [hanswer] at hdeletion
        cases hdeletion
        rfl
  obtain ⟨live', hfail, -⟩ := exec_commitBatch_of_hindrance hwhy
  exact ⟨live', exec_bind_error hfail _⟩

end Live

end Rollup
