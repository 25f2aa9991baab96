import Rollup.Proofs.Index.Carrying
import Rollup.Proofs.Index.Ledger

/-!
# Rebuilding — an index is a function of its live documents

A run of batches through one handle keeps a ledger (`batches`): what the changes of the committed
batches have put last and not deleted since, and the etags that were given out for it.
`batches_stored` says that after every run on a new index each live document has an etag, and the
trees are those of the ledger, whatever the batches were and however many of them failed: the
maintained index is what indexing the live documents alone would give.
-/

namespace Rollup

open Rollup.Action

namespace Live

variable {β σ : Type}

variable [Backend β]

/-! ### Runs -/

/-- An index and the ledger of what was committed through it, after a batch.  If the batch is
committed its changes are recorded, all of them. -/
def batch (sink : Sink σ) (run : Live β σ × Ledger) (changes : List Change) : Live β σ × Ledger :=
  (((runBatch sink changes).exec run.1).2,
    match ((commitBatch changes).exec run.1).1 with
    | .ok (result, _) => run.2.record changes result.etags
    | .error _ => run.2)

/-- The same after a list of batches. -/
def batches (sink : Sink σ) (run : Live β σ × Ledger) (list : List (List Change)) :
    Live β σ × Ledger :=
  list.foldl (batch sink) run

/-- A run of this index has come to these contents, and they mirror its ledger. -/
structure Reached (ix : Index) (run : Live β σ × Ledger) (c : Contents) : Prop where
  holds : At c run.1
  definition : run.1.index.definition = ix.definition
  config : run.1.index.config = ix.config
  mirrors : Index.Mirrors ix run.2 c

/-- **The ends of a batch**, on contents and ledger. -/
theorem batch_cases {ix : Index} {run : Live β σ × Ledger} {c : Contents}
    (h : Reached ix run c) (sink : Sink σ) (changes : List Change) :
    (Reached ix (batch sink run changes) c ∧
      (batch sink run changes).1.committed = run.1.committed) ∨
    ∃ c' update prepared live', Committed run.1 changes c c' update prepared live' ∧
      Reached ix (batch sink run changes) c' ∧
      (batch sink run changes).1.committed = update.snapshot := by
  obtain ⟨state, hrun⟩ := exec_runBatch sink changes run.1
  rw [batch, hrun]
  rcases commitBatch_at h.holds changes with
    ⟨e, live', hexec, hsame, hcommitted, hat⟩ | ⟨c', update, prepared, live', hcommitted, hexec⟩ <;>
    rw [hexec]
  · exact .inl ⟨⟨⟨hat.holds, hat.lockstep, hat.counter, hat.definition⟩,
      hsame.definition.trans h.definition, hsame.config.trans h.config, h.mirrors⟩, hcommitted⟩
  · obtain ⟨result, happlied, hresult⟩ := hcommitted.applied
    have hat := hcommitted.holds
    have hmirrors := (h.mirrors.congr h.definition h.config).appliedAll happlied
    refine .inr ⟨c', update, prepared, live', hcommitted,
      ⟨⟨hat.holds, hat.lockstep, hat.counter, hat.definition⟩,
        hcommitted.definition.trans h.definition, hcommitted.config.trans h.config, ?_⟩,
      hcommitted.committed⟩
    rw [hresult]
    exact hmirrors.congr h.definition.symm h.config.symm

/-- **A batch** keeps contents and ledger together. -/
theorem batch_reached {ix : Index} {run : Live β σ × Ledger} {c : Contents}
    (h : Reached ix run c) (sink : Sink σ) (changes : List Change) :
    ∃ c', Reached ix (batch sink run changes) c' := by
  rcases batch_cases h sink changes with ⟨hreached, -⟩ | ⟨c', -, -, -, -, hreached, -⟩
  · exact ⟨c, hreached⟩
  · exact ⟨c', hreached⟩

theorem batches_reached {ix : Index} {run : Live β σ × Ledger} {c : Contents}
    (h : Reached ix run c) (sink : Sink σ) (list : List (List Change)) :
    ∃ c', Reached ix (batches sink run list) c' := by
  induction list generalizing run c with
  | nil => exact ⟨c, h⟩
  | cons changes list ih =>
      obtain ⟨c', h'⟩ := batch_reached h sink changes
      exact ih h'

/-- **Batches that all succeed** are all recorded. -/
theorem batches_of_runBatches {sink : Sink σ} {run : Live β σ × Ledger}
    {list : List (List Change)} {result : BatchResult} {live' : Live β σ}
    (h : (runBatches sink list).exec run.1 = (.ok result, live')) :
    (batches sink run list).1 = live' ∧
      (batches sink run list).2.data = Ledger.documentsAfter run.2.data list.flatten := by
  induction list generalizing run result with
  | nil =>
      cases h
      exact ⟨rfl, rfl⟩
  | cons changes list ih =>
      rw [runBatches, exec_bind_eq_ok] at h
      obtain ⟨first, live₁, hfirst, h⟩ := h
      rw [exec_bind_eq_ok] at h
      obtain ⟨rest, live₂, hrest, h⟩ := h
      cases h
      obtain ⟨answer, live₀, hcommit, -⟩ := exec_bind_eq_ok.1 hfirst
      have hbatch : batch sink run changes = (live₁, run.2.record changes answer.1.etags) := by
        rw [batch, hfirst, hcommit]
      rw [batches, List.foldl_cons, ← batches, hbatch, List.flatten_cons, Ledger.documentsAfter,
        List.foldl_append]
      exact ih hrest

/-- **What a new index carries out** is all recorded. -/
theorem data_of_create [LawfulBackend β] {sink : Sink σ} (hwilling : sink.Willing)
    {d : Definition} {config : Config} {host host' : Host β} {ix : Index}
    (hsound : BackendView.Sound host.env.log.backend)
    (hcreate : (Index.create d config).exec host = (.ok ix, host')) {s : Snapshot}
    (hcommitted : host'.env.committed = s) {list : List (List Change)}
    (h : ix.carriesOut s .zero list = true) (state : σ) :
    (batches sink (ofHost host' ix state, .empty) list).2.data =
      Ledger.documentsAfter (fun _ => none) list.flatten := by
  obtain ⟨result, live', hrun⟩ :=
    exists_runBatches_of_create hwilling hsound hcreate hcommitted h state
  exact (@batches_of_runBatches _ _ _ _ (ofHost host' ix state, .empty) _ _ _ hrun).2

end Live

/-! ### The trees of a ledger -/

/-- The trees of an index hold what its live documents make of them, and nothing else. -/
structure Ledger.Stored (ledger : Ledger) (ix : Index) (s : Snapshot) : Prop where
  /-- Each live document has an etag, a group, a blob and a row of its own. -/
  total : ∀ key data, ledger.data key = some data → ∃ etag hash blob row,
    ledger.Has key etag data ∧ ix.contribution data = .ok (hash, blob) ∧
      (EntryTable.toRow ⟨etag, key, hash⟩).encode = .ok row
  unique : ∀ key key' etag data data', ledger.Has key etag data → ledger.Has key' etag data' →
    key = key'
  /-- The map entry table. -/
  table : ∀ k row, s.cell (entryTable ix.name) k = some row ↔
    ∃ key etag data hash blob, ledger.Has key etag data ∧
      ix.contribution data = .ok (hash, blob) ∧ k = etag.encode ∧
      (EntryTable.toRow ⟨etag, key, hash⟩).encode = .ok row
  /-- The buckets. -/
  bucket : ∀ hash k blob, s.cell (bucketTree ix.name hash) k = some blob ↔
    ∃ key etag data, ledger.Has key etag data ∧
      ix.contribution data = .ok (hash, blob) ∧ k = etag.encode
  /-- What is found under a document key. -/
  entries : ∀ key, key.length < Bytes.capacity 4 →
    (ledger.data key = none → ix.entriesIn s key = .ok []) ∧
    ∀ etag data hash blob, ledger.Has key etag data →
      ix.contribution data = .ok (hash, blob) → ix.entriesIn s key = .ok [⟨etag, key, hash⟩]

/-- A list in strict order whose elements are all one. -/
theorem eq_singleton_of_pairwise {α : Type} {r : α → α → Prop} (hirrefl : ∀ a, ¬ r a a) {a : α}
    {l : List α} (h : l.Pairwise r) (hmem : ∀ b, b ∈ l ↔ b = a) : l = [a] := by
  cases l with
  | nil => exact absurd ((hmem a).2 rfl) List.not_mem_nil
  | cons b l =>
      obtain rfl : b = a := (hmem b).1 List.mem_cons_self
      cases l with
      | nil => rfl
      | cons c l =>
          obtain rfl : c = b := (hmem c).1 (by simp)
          exact absurd ((List.pairwise_cons.1 h).1 c List.mem_cons_self) (hirrefl c)

namespace Index.Mirrors

variable {ix : Index} {ledger : Ledger} {c : Contents} {s : Snapshot}

/-- What is found under a document key is the entry of the live document, if there is one. -/
theorem mem_entriesIn_iff (h : Mirrors ix ledger c) (hholds : c.Holds ix.name s)
    {key : DocumentKey} (hlen : key.length < Bytes.capacity 4) :
    ∃ found, ix.entriesIn s key = .ok found ∧
      (found.Pairwise fun a b => a.etag.toNat < b.etag.toNat) ∧
      ∀ e, e ∈ found ↔ ∃ etag data hash blob, ledger.Has key etag data ∧
        ix.contribution data = .ok (hash, blob) ∧ e = ⟨etag, key, hash⟩ := by
  obtain ⟨found, hfound, hmem, hasc⟩ := EntryTable.ofDocument_eq hholds.table hlen
  refine ⟨found, hfound, hasc, fun e => ?_⟩
  rw [hmem]
  constructor
  · rintro ⟨⟨_, hash⟩, hm, rfl, he⟩
    obtain ⟨data, blob, hkey, hc⟩ := (h.rows e.etag _ hash).1 hm
    exact ⟨e.etag, data, hash, blob, hkey, hc, he⟩
  · rintro ⟨etag, data, hash, blob, hkey, hc, rfl⟩
    exact ⟨_, (h.rows etag key hash).2 ⟨data, blob, hkey, hc⟩, rfl, rfl⟩

theorem stored (h : Mirrors ix ledger c) (hholds : c.Holds ix.name s) : ledger.Stored ix s where
  total key data hdata := by
    obtain ⟨etag, hash, blob, hkey, hc⟩ := h.total key data hdata
    have hrow := EntryTable.rowsOf_encode c.rows etag
    rw [(h.rows etag key hash).2 ⟨data, blob, hkey, hc⟩] at hrow
    obtain ⟨row, hencode⟩ := (hholds.table.fits hrow).stored
    exact ⟨etag, hash, blob, row, hkey, hc, hencode⟩
  unique key key' etag data data' hkey hkey' := h.key_unique hkey hkey'
  table k row := by
    have hname : entryTable ix.name = (EntryTable.schema ix.name).name := rfl
    rw [hname, hholds.table.cell]
    constructor
    · rintro ⟨r, hr, hencode⟩
      obtain ⟨etag, ⟨key, hash⟩, rfl, hm, rfl⟩ := EntryTable.rowsOf_eq_some_iff.1 hr
      obtain ⟨data, blob, hkey, hc⟩ := (h.rows etag key hash).1 hm
      exact ⟨key, etag, data, hash, blob, hkey, hc, rfl, hencode⟩
    · rintro ⟨key, etag, data, hash, blob, hkey, hc, rfl, hencode⟩
      have hm := (h.rows etag key hash).2 ⟨data, blob, hkey, hc⟩
      exact ⟨_, EntryTable.rowsOf_eq_some_iff.2 ⟨etag, ⟨key, hash⟩, rfl, hm, rfl⟩, hencode⟩
  bucket hash k blob := by
    rw [hholds.bucket_eq, cellsOf_eq_some_iff Etag.decode_eq_ok_iff]
    constructor
    · rintro ⟨etag, rfl, hb⟩
      obtain ⟨key, data, hkey, hc⟩ := (h.blobs hash etag blob).1 hb
      exact ⟨key, etag, data, hkey, hc, rfl⟩
    · rintro ⟨key, etag, data, hkey, hc, rfl⟩
      exact ⟨etag, rfl, (h.blobs hash etag blob).2 ⟨key, data, hkey, hc⟩⟩
  entries key hlen := by
    obtain ⟨found, hfound, hasc, hmem⟩ := h.mem_entriesIn_iff hholds hlen
    refine ⟨fun hdead => ?_, fun etag data hash blob hkey hc => ?_⟩
    · have hnone : found = [] := by
        refine List.eq_nil_iff_forall_not_mem.2 fun e he => ?_
        obtain ⟨_, _, _, _, hkey, -⟩ := (hmem e).1 he
        have hdata := hkey.data
        rw [hdead] at hdata
        cases hdata
      rw [hfound, hnone]
    · have hone : found = [⟨etag, key, hash⟩] := by
        refine eq_singleton_of_pairwise (r := fun a b : Entry => a.etag.toNat < b.etag.toNat)
          (fun e => Nat.lt_irrefl _) hasc fun e => ?_
        rw [hmem]
        constructor
        · rintro ⟨etag', data', hash', blob', hkey', hc', rfl⟩
          obtain ⟨rfl, rfl⟩ := hkey.inj hkey'
          rw [hc] at hc'
          cases hc'
          rfl
        · rintro rfl
          exact ⟨etag, data, hash, blob, hkey, hc, rfl⟩
      rw [hfound, hone]

end Index.Mirrors

namespace Live

variable {β σ : Type} [Backend β]

theorem reached_of_create {d : Definition} {config : Config} {host host' : Host β} {ix : Index}
    (hvacant : host.env.committed.Vacant d.name)
    (hcreate : (Index.create d config).exec host = (.ok ix, host')) (state : σ) :
    ∃ c, Reached ix (ofHost host' ix state, .empty) c := by
  obtain ⟨stored, -, hat⟩ := Index.at_of_create hvacant hcreate state
  exact ⟨.initial stored, hat, rfl, rfl, Index.mirrors_empty ix stored .zero _⟩

omit [Backend β] in
theorem Reached.stored {ix : Index} {run : Live β σ × Ledger} {c : Contents}
    (h : Reached ix run c) : run.2.Stored ix run.1.committed := by
  refine h.mirrors.stored ?_
  have hholds := h.holds.holds
  rwa [Index.name, h.definition] at hholds

end Live

/-- **Incremental maintenance is rebuilding.**  After any batches through one handle of a new index,
committed or not, its trees hold what the live documents make of them and nothing else. -/
theorem Live.batches_stored {β σ : Type} [Backend β] {d : Definition} {config : Config}
    {host host' : Host β} {ix : Index} (hvacant : host.env.committed.Vacant d.name)
    (hcreate : (Index.create d config).exec host = (.ok ix, host')) (sink : Sink σ) (state : σ)
    (list : List (List Change)) :
    (batches sink (ofHost host' ix state, .empty) list).2.Stored ix
        (batches sink (ofHost host' ix state, .empty) list).1.committed ∧
      ix.definition = d ∧ ix.config = config ∧
      ∀ data, ∀ field ∈ d.fields,
        (d.mapped data).field? field.name = some (Definition.contributed field data) := by
  obtain ⟨hvalid, hix, -⟩ := Index.create_eq_ok hcreate
  obtain ⟨c₀, hstart⟩ := reached_of_create hvacant hcreate state
  obtain ⟨c, hreached⟩ := batches_reached hstart sink list
  refine ⟨hreached.stored, by rw [hix], by rw [hix], fun data field hfield => ?_⟩
  exact Definition.field?_mapped hvalid data hfield

/-- What a new index carries out: of two documents one is deleted, and the other put again. -/
theorem Index.carriesOut_put_again : carriesOut ⟨minimal, {}, .zero, {}⟩ minimalTrees .zero
    [[.put ⟨[1], .null⟩, .put ⟨[2], .null⟩], [.delete [2], .put ⟨[1], .bool true⟩]] = true := by
  decide +kernel

theorem Live.batches_stored_of_minimal :
    ∃ ix host', (Index.create Index.minimal {}).exec ⟨.fresh (Memory.mk []), #[]⟩ =
        (.ok ix, host') ∧
      let run := batches Sink.discard (ofHost host' ix (), .empty)
        [[.put ⟨[1], .null⟩, .put ⟨[2], .null⟩], [.delete [2], .put ⟨[1], .bool true⟩]]
      run.2.Stored ix run.1.committed ∧
        (∃ etag hash, run.2.Has [1] etag (.bool true) ∧
          ix.entriesIn run.1.committed [1] = .ok [⟨etag, [1], hash⟩]) ∧
        run.2.data [2] = none ∧ ix.entriesIn run.1.committed [2] = .ok [] := by
  obtain ⟨host', hcreate⟩ := Index.exec_create_minimal {}
  refine ⟨_, host', hcreate, ?_⟩
  intro run
  have hstored : run.2.Stored _ run.1.committed :=
    (batches_stored (Snapshot.vacant_empty _) hcreate Sink.discard () _).1
  -- both batches are committed
  have hdata := data_of_create Sink.willing_discard trivial hcreate
    (Index.committed_of_create_minimal hcreate) Index.carriesOut_put_again ()
  have hlive : run.2.data [1] = some (.bool true) := congrFun hdata [1]
  have hdead : run.2.data [2] = none := congrFun hdata [2]
  obtain ⟨etag, hash, blob, -, hhas, hc, -⟩ := hstored.total _ _ hlive
  exact ⟨hstored, ⟨etag, hash, hhas, (hstored.entries [1] (by decide)).2 _ _ _ _ hhas hc⟩, hdead,
    (hstored.entries [2] (by decide)).1 hdead⟩

end Rollup
