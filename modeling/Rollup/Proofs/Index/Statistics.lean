import Rollup.Proofs.Index.Counter
import Rollup.Proofs.Index.Creation
import Rollup.Proofs.Index.Invisible
import Rollup.Proofs.Index.Readable
import Mathlib.Data.Set.Card

/-!
# Statistics — the counts of an index balance with its rows

The entries of an index are counted by the etags in use (`EntryTable.size_eq`).  Removing a document
frees as many etags as it finds entries, and entering one takes one more, so the entries and what
was retracted make up what was mapped, change by change (`Index.Applied.balance`).  A batch that is
not committed answers no result and leaves the counts alone; one that is committed adds its result
to them (`Live.serve_batch`).

**Balance** (`Live.statistics_balance`).  Take any batches and reductions of one handle, some of
them failing, with receivers that refuse nothing.  Then the entries and the documents retracted are
together as many as the documents mapped; and the counts are those of the changes in the batches
that were committed, and the sums over the results that were returned.  A document that is mapped
takes an etag, and only one that was mapped is retracted, so these two counters never wrap around;
deletions take none, and are counted modulo 2^64.
-/

namespace Rollup

open Rollup.Action

/-! ### Etags in use -/

instance : Finite Etag :=
  Finite.of_injective (fun e => (⟨e.toNat, e.val.toNat_lt⟩ : Fin (2 ^ 64))) fun a b h => by
    have hval : a.val = b.val := UInt64.toNat_inj.1 (congrArg Fin.val h)
    cases a
    cases b
    exact congrArg Etag.mk hval

namespace EntryTable

/-- The etags that have a row. -/
def inUse (rows : Mappings) : Set Etag := {etag | (rows etag).isSome = true}

/-- **The number of entries** is that of the etags in use. -/
theorem size_eq {index : String} {rows : Mappings} {s : Snapshot} (h : Stores index rows s) :
    size index s = (inUse rows).ncard := by
  have hkeys : (inUse rows).image Etag.encode =
      {key | key ∈ (s.treeAt (schema index).name).keys} := by
    ext key
    rw [Set.mem_image, Set.mem_ofPred_eq, OrderedMap.mem_keys_iff, Snapshot.get?_treeAt,
      Option.isSome_iff_exists]
    simp only [h.cell]
    constructor
    · rintro ⟨etag, hetag, rfl⟩
      obtain ⟨m, hm⟩ := Option.isSome_iff_exists.1 hetag
      have hrow := rowsOf_eq_some_iff.2 ⟨etag, m, rfl, hm, rfl⟩
      obtain ⟨stored, hstored⟩ := (h.fits hrow).stored
      exact ⟨stored, _, hrow, hstored⟩
    · rintro ⟨_, row, hrow, -⟩
      obtain ⟨etag, m, rfl, hm, -⟩ := rowsOf_eq_some_iff.1 hrow
      exact ⟨etag, Option.isSome_iff_exists.2 ⟨m, hm⟩, rfl⟩
  have hnodup : (s.treeAt (schema index).name).keys.Nodup :=
    (OrderedMap.keys_ascending _).imp fun hlt e => by simp [e] at hlt
  rw [size, TableSchema.size, Snapshot.treeSize_eq, ← Set.ncard_image_of_injective (inUse rows)
    fun _ _ => Etag.encode_inj.1, hkeys, ← List.coe_toFinset, Set.ncard_coe_finset,
    List.toFinset_card_of_nodup hnodup, OrderedMap.keys, List.length_map, OrderedMap.size]

end EntryTable

/-! ### Entries of the contents -/

namespace Contents

/-- The number of entries. -/
noncomputable def entryCount (c : Contents) : Nat := (EntryTable.inUse c.rows).ncard

/-- No etag in use is past the last one. -/
def Bounded (c : Contents) : Prop := ∀ etag m, c.rows etag = some m → etag.toNat ≤ c.last.toNat

variable {c : Contents}

theorem entryCount_initial (definition : Bytes) : (initial definition).entryCount = 0 := by
  have hempty : EntryTable.inUse (initial definition).rows = ∅ :=
    Set.eq_empty_of_forall_notMem fun _ h => by cases h
  rw [entryCount, hempty, Set.ncard_empty]

theorem Bounded.removeAll (h : c.Bounded) (entries : List Entry) :
    (c.removeAll entries).Bounded := by
  intro etag m hm
  rw [rows_removeAll] at hm
  split at hm
  · cases hm
  · rw [last_removeAll]
    exact h etag m hm

theorem Bounded.enter (h : c.Bounded) {etag : Etag} (hlt : c.last.toNat < etag.toNat)
    (m : Mapping) (blob key : Bytes) : (c.enter etag m blob key).Bounded := by
  intro f m' hm
  rw [rows_enter] at hm
  rw [last_enter]
  split at hm
  · next hf => exact Nat.le_of_eq (congrArg Etag.toNat hf)
  · exact Nat.le_of_lt (Nat.lt_of_le_of_lt (h f m' hm) hlt)

/-- **Removing a document** frees as many etags as entries are found. -/
theorem entryCount_removeAll {key : DocumentKey} {entries : List Entry}
    (h : c.Finds key entries) :
    (c.removeAll entries).entryCount + entries.length = c.entryCount := by
  let found : Set Etag := {etag | etag ∈ entries.map (·.etag)}
  have hnodup : (entries.map (·.etag)).Nodup :=
    List.pairwise_map.2 (h.ascending.imp fun hlt e => by simp [e] at hlt)
  have hcount : found.ncard = entries.length := by
    rw [← List.length_map (f := (·.etag)), ← List.toFinset_card_of_nodup hnodup,
      ← Set.ncard_coe_finset, List.coe_toFinset]
  have hfound : found ⊆ EntryTable.inUse c.rows := fun etag hetag => by
    obtain ⟨e, he, rfl⟩ := List.mem_map.1 hetag
    obtain ⟨m, hm, -⟩ := (h.mem e).1 he
    exact Option.isSome_iff_exists.2 ⟨m, hm⟩
  have hleft : EntryTable.inUse (c.removeAll entries).rows = EntryTable.inUse c.rows \ found := by
    ext etag
    have hmem : etag ∈ found ↔ ∃ e ∈ entries, e.etag = etag := List.mem_map
    rw [Set.mem_sdiff, hmem, EntryTable.inUse, Set.mem_ofPred_eq, rows_removeAll]
    split
    · next hex => simp [hex]
    · next hnot => exact ⟨fun hrow => ⟨hrow, hnot⟩, And.left⟩
  rw [entryCount, hleft, ← hcount]
  exact Set.ncard_sdiff_add_ncard_of_subset hfound

/-- **Entering a document** takes one more. -/
theorem entryCount_enter {etag : Etag} (h : c.rows etag = none) (m : Mapping) (blob key : Bytes) :
    (c.enter etag m blob key).entryCount = c.entryCount + 1 := by
  have hmore : EntryTable.inUse (c.enter etag m blob key).rows =
      insert etag (EntryTable.inUse c.rows) := by
    ext f
    rw [Set.mem_insert_iff, EntryTable.inUse, Set.mem_ofPred_eq, rows_enter]
    split
    · next hf => simp [hf]
    · next hf => exact ⟨.inr, fun hor => hor.resolve_left hf⟩
  have hfree : etag ∉ EntryTable.inUse c.rows := fun hrow => by
    rw [EntryTable.inUse, Set.mem_ofPred_eq, h] at hrow
    cases hrow
  rw [entryCount, hmore, Set.ncard_insert_of_notMem hfree, entryCount]

end Contents

namespace Index

variable {ix : Index} {c c' : Contents}

/-! ### What changes count -/

/-- A change and its result: what is there and what was retracted make up what was there and what
was mapped. -/
theorem Applied.balance {change : Change} {result : BatchResult}
    (h : Applied ix change c c' result) (hc : c.Bounded) :
    c'.Bounded ∧ c'.entryCount + result.retracted = c.entryCount + result.mapped ∧
      c.last.toNat + result.mapped ≤ c'.last.toNat ∧
      result.mapped = [change].countP Change.isPut ∧
      result.deleted = [change].countP (!·.isPut) := by
  cases h with
  | @put _ document entries _ key blob hash etag hfinds _ _ hlt =>
      have hleft := hc.removeAll entries
      rw [← Contents.last_removeAll c entries] at hlt
      have hfree : (c.removeAll entries).rows etag = none :=
        Option.eq_none_iff_forall_ne_some.2 fun m hm =>
          absurd (hleft etag m hm) (Nat.not_le.2 hlt)
      have hremoved := Contents.entryCount_removeAll hfinds
      have hentered := Contents.entryCount_enter hfree ⟨document.key, hash⟩ blob key
      refine ⟨hleft.enter hlt _ blob key, ?_, ?_, rfl, rfl⟩
      · dsimp only
        omega
      · rw [Contents.last_enter, ← Contents.last_removeAll c entries]
        exact hlt
  | delete hfinds =>
      refine ⟨hc.removeAll _, Contents.entryCount_removeAll hfinds, ?_, rfl, rfl⟩
      rw [Contents.last_removeAll]
      exact Nat.le_refl _

/-- **Changes in order** count as each of them does. -/
theorem AppliedAll.balance {changes : List Change} {result : BatchResult}
    (h : AppliedAll ix changes c c' result) (hc : c.Bounded) :
    c'.entryCount + result.retracted = c.entryCount + result.mapped ∧
      c.last.toNat + result.mapped ≤ c'.last.toNat ∧
      result.mapped = changes.countP Change.isPut ∧
      result.deleted = changes.countP (!·.isPut) := by
  induction h with
  | nil => exact ⟨rfl, Nat.le_refl _, rfl, rfl⟩
  | @cons _ _ _ change changes first rest hfirst _ ih =>
      obtain ⟨hc₁, hbalance, hlast, hputs, hdeletes⟩ := hfirst.balance hc
      obtain ⟨hbalance', hlast', hputs', hdeletes'⟩ := ih hc₁
      rw [← List.singleton_append, List.countP_append, List.countP_append, ← hputs, ← hdeletes,
        ← hputs', ← hdeletes']
      refine ⟨?_, ?_, rfl, rfl⟩
      · show _ + (first.retracted + rest.retracted) = _ + (first.mapped + rest.mapped)
        omega
      · show _ + (first.mapped + rest.mapped) ≤ _
        omega

end Index

namespace Live

variable {β σ : Type}

/-! ### What is asked of a handle -/

/-- A batch, or to reduce everything. -/
inductive Request (σ : Type) where
  | batch (job : Job σ)
  | reduceAll (sink : Sink σ)

/-- The receiver of the results. -/
def Request.sink : Request σ → Sink σ
  | .batch job => job.sink
  | .reduceAll sink => sink

variable [Backend β]

/-- The index after a request, whatever the answer. -/
def serve (live : Live β σ) : Request σ → Live β σ
  | .batch job => live.after job
  | .reduceAll sink => ((reduceAll sink).exec live).2

/-- The index after a run of requests. -/
def serveAll (live : Live β σ) (requests : List (Request σ)) : Live β σ := requests.foldl serve live

/-- The result that a request returns, if it is a batch that succeeds. -/
def result (live : Live β σ) : Request σ → List BatchResult
  | .batch job => ((runBatch job.sink job.changes).exec live).1.toOption.toList
  | .reduceAll _ => []

/-- The results that a run of requests returns, in order. -/
def results : Live β σ → List (Request σ) → List BatchResult
  | _, [] => []
  | live, request :: requests => live.result request ++ results (live.serve request) requests

/-- The batch gets to its commit, and that is successful. -/
def Commits (live : Live β σ) (changes : List Change) : Prop :=
  ∃ prepared update, live.Ready changes prepared update ∧ (live.committing update).1 = .ok ()

open Classical in
/-- The changes that a request commits. -/
noncomputable def changed (live : Live β σ) : Request σ → List Change
  | .batch job => if live.Commits job.changes then job.changes else []
  | .reduceAll _ => []

/-- The changes in the batches of a run that are committed, in order. -/
noncomputable def changedAll : Live β σ → List (Request σ) → List Change
  | _, [] => []
  | live, request :: requests =>
    live.changed request ++ changedAll (live.serve request) requests

/-! ### What is counted -/

/-- These changes have led from these entries and counters to those, and the results say so. -/
structure Tallied (changes : List Change) (results : List BatchResult) (c : Contents)
    (counters : Counters) (c' : Contents) (counters' : Counters) : Prop where
  entries : c'.entryCount + (results.map (·.retracted)).sum =
    c.entryCount + (results.map (·.mapped)).sum
  /-- Each document that was mapped has taken an etag. -/
  last : c.last.toNat + (results.map (·.mapped)).sum ≤ c'.last.toNat
  puts : (results.map (·.mapped)).sum = changes.countP Change.isPut
  deletes : (results.map (·.deleted)).sum = changes.countP (!·.isPut)
  mapped : counters'.mapped = counters.mapped + .ofNat (results.map (·.mapped)).sum
  deleted : counters'.deleted = counters.deleted + .ofNat (results.map (·.deleted)).sum
  retracted : counters'.retracted = counters.retracted + .ofNat (results.map (·.retracted)).sum

namespace Tallied

variable {changes changes' : List Change} {results results' : List BatchResult}
  {c c₁ c₂ : Contents} {counters counters₁ counters₂ : Counters}

/-- Nothing is counted. -/
theorem still (hmapped : counters₁.mapped = counters.mapped)
    (hdeleted : counters₁.deleted = counters.deleted)
    (hretracted : counters₁.retracted = counters.retracted) :
    Tallied [] [] c counters c counters₁ :=
  ⟨rfl, Nat.le_refl _, rfl, rfl, by simpa using hmapped, by simpa using hdeleted,
    by simpa using hretracted⟩

theorem trans (h : Tallied changes results c counters c₁ counters₁)
    (h' : Tallied changes' results' c₁ counters₁ c₂ counters₂) :
    Tallied (changes ++ changes') (results ++ results') c counters c₂ counters₂ := by
  obtain ⟨entries, last, puts, deletes, mapped, deleted, retracted⟩ := h
  obtain ⟨entries', last', puts', deletes', mapped', deleted', retracted'⟩ := h'
  constructor <;>
    simp only [List.map_append, List.sum_append, List.countP_append, UInt64.ofNat_add]
  · omega
  · omega
  · omega
  · omega
  · rw [mapped', mapped, UInt64.add_assoc]
  · rw [deleted', deleted, UInt64.add_assoc]
  · rw [retracted', retracted, UInt64.add_assoc]

/-- A batch that is committed is counted. -/
theorem batch {ix : Index} {result : BatchResult}
    (h : Index.AppliedAll ix changes c c₁ result) (hc : c.Bounded) (n : Nat) (counters : Counters) :
    Tallied changes [{ result with reduced := n }] c counters c₁
      (Index.countBatch { result with reduced := n } counters) := by
  obtain ⟨hentries, hlast, hputs, hdeletes⟩ := h.balance hc
  exact ⟨by simpa using hentries, by simpa using hlast, by simpa using hputs,
    by simpa using hdeletes, by simp [Index.countBatch, Index.countReduced],
    by simp [Index.countBatch, Index.countReduced], by simp [Index.countBatch, Index.countReduced]⟩

/-- From counters at zero, what was mapped and what was retracted is counted exactly. -/
theorem exact (h : Tallied changes results c {} c₁ counters) (hc : c.entryCount = 0) :
    counters.mapped.toNat = (results.map (·.mapped)).sum ∧
      counters.retracted.toNat = (results.map (·.retracted)).sum ∧
      counters.deleted.toNat = (results.map (·.deleted)).sum % 2 ^ 64 := by
  have hentries := h.entries
  have hlast := h.last
  -- the etags bound what was mapped, and that bounds what was retracted
  have hbound : c₁.last.toNat < 2 ^ 64 := c₁.last.val.toNat_lt
  rw [h.mapped, h.retracted, h.deleted, UInt64.zero_add, UInt64.zero_add, UInt64.zero_add,
    UInt64.toNat_ofNat', UInt64.toNat_ofNat', UInt64.toNat_ofNat']
  exact ⟨Nat.mod_eq_of_lt (by omega), Nat.mod_eq_of_lt (by omega), rfl⟩

end Tallied

/-! ### Statistics of a batch -/

/-- **A batch is counted** by its result if it is committed, and else as a failed one at most. -/
theorem counters_of_commitBatch (live : Live β σ) (changes : List Change) :
    match (commitBatch changes).exec live with
    | (.ok (result, _), live') => live'.index.counters = Index.countBatch result live.index.counters
    | (.error _, live') => SameButFailed live.index.counters live'.index.counters := by
  by_cases hsize : live.index.config.maxBatchSize < changes.length
  · rw [commitBatch, exec_bind_ok (exec_get live)]
    dsimp only
    rw [if_pos hsize]
    exact ⟨_, rfl⟩
  rcases hstage : live.stage changes with ⟨e | prepared, update⟩
  · rw [commitBatch, exec_bind_ok (exec_get live)]
    dsimp only
    rw [if_neg hsize, hstage]
    exact ⟨_, rfl⟩
  · obtain ⟨events, hcommit⟩ := exec_commit update.txn (live.atCommit update)
    rw [exec_commitBatch_eq ⟨hsize, hstage⟩, conclude, exec_bind, exec_tryCatch, hcommit]
    cases ((Environment.commit update.txn
      (live.atCommit update).index.config.syncOnCommit).exec (live.atCommit update).env).1 with
    | error e => exact ⟨_, rfl⟩
    | ok _ => rfl

/-- A batch commits just when it answers its transaction a result. -/
theorem commits_iff {live : Live β σ} {changes : List Change} :
    live.Commits changes ↔
      ∃ answer live', (commitBatch changes).exec live = (.ok answer, live') := by
  constructor
  · rintro ⟨prepared, update, hready, hok⟩
    obtain ⟨live', -, hexec⟩ := exec_commitBatch_of_ready hready
    rw [hok] at hexec
    exact ⟨_, live', hexec⟩
  · rintro ⟨⟨result, deliveries⟩, live', hexec⟩
    obtain ⟨prepared, update, hready, -, hok, -⟩ := ready_of_commitBatch hexec
    exact ⟨prepared, update, hready, hok⟩

variable {live : Live β σ} {c : Contents}

/-- **A batch**, whatever becomes of it: it is counted just when it is committed. -/
theorem serve_batch (h : At c live) {job : Job σ} (haccepts : ∀ e, ¬ job.sink.Refuses e) :
    ∃ c', At c' (live.after job) ∧ Tallied (live.changed (.batch job)) (live.result (.batch job))
      c live.index.counters c' (live.after job).index.counters := by
  have hcounters := live.counters_of_commitBatch job.changes
  obtain ⟨state, hrun⟩ := exec_runBatch job.sink job.changes live
  rw [changed, commits_iff, result, after, hrun]
  rcases commitBatch_at h job.changes with
    ⟨e, live', hexec, -, -, hat⟩ | ⟨c', update, prepared, live', hcommitted, hexec⟩ <;>
    rw [hexec] at hcounters ⊢
  · obtain ⟨failed, hcounters⟩ := hcounters
    have hnot : ¬ ∃ answer last,
        ((.error e : Except IndexError (BatchResult × List Delivery)), live') =
          (.ok answer, last) := by
      rintro ⟨_, _, hok⟩
      cases hok
    rw [runBatch, exec_bind_error hexec, if_neg hnot]
    refine ⟨c, hat.congr rfl rfl hat.counter, .still ?_ ?_ ?_⟩ <;> rw [hcounters]
  · obtain ⟨result, happlied, hresult⟩ := hcommitted.applied
    obtain ⟨answer, last, hdeliver, hrefuses⟩ :=
      exec_deliverAll job.sink (Index.deliveries update.retracted prepared.outputs) live'
    cases answer with
    | error e => exact absurd (hrefuses e rfl) (haccepts e)
    | ok _ =>
        rw [runBatch, exec_bind_ok hexec, exec_bind_ok hdeliver, if_pos ⟨_, _, rfl⟩]
        refine ⟨c', hcommitted.holds.congr rfl rfl hcommitted.holds.counter, ?_⟩
        show Tallied job.changes [prepared.result] c live.index.counters c' live'.index.counters
        rw [hcounters, hresult]
        exact .batch happlied h.lockstep.bounded _ _

/-- **Reducing everything** counts nothing but the reductions. -/
theorem serve_reduceAll (h : At c live) (sink : Sink σ) :
    At c (live.serve (.reduceAll sink)) ∧
      Tallied [] [] c live.index.counters c (live.serve (.reduceAll sink)).index.counters := by
  have hkeeps : Preserves (fun last : Live β σ => last.env = live.env ∧
      ∃ reduced, last.index = { live.index with counters := { live.index.counters with reduced } })
      (reduceAll sink) := by
    refine preserves_get.bind fun _ => (preserves_lift _).bind fun hashes => ?_
    refine .bind (fun last hlast => ?_) fun written => .bind (preserves_modify ?_) fun _ =>
      .bind (preserves_modify fun _ hlast => hlast) fun _ => preserves_pure _
    · obtain ⟨_, state, hexec, -⟩ := tells_reduceGroups sink hashes last
      rw [hexec]
      exact hlast
    · rintro last ⟨henv, reduced, hindex⟩
      exact ⟨henv, reduced + .ofNat written, by rw [hindex]; rfl⟩
  obtain ⟨henv, reduced, hindex⟩ := hkeeps live ⟨rfl, live.index.counters.reduced, rfl⟩
  have hserve : ((reduceAll sink).exec live).2 = live.serve (.reduceAll sink) := rfl
  rw [hserve] at henv hindex
  refine ⟨h.congr ?_ (congrArg Environment.committed henv) ?_, .still ?_ ?_ ?_⟩ <;> rw [hindex]
  exact h.counter

/-- **A run of requests** on some contents. -/
theorem serveAll_tallied (h : At c live) {requests : List (Request σ)}
    (haccepts : ∀ request ∈ requests, ∀ e, ¬ request.sink.Refuses e) :
    ∃ c', At c' (live.serveAll requests) ∧
      Tallied (live.changedAll requests) (live.results requests) c live.index.counters c'
        (live.serveAll requests).index.counters := by
  induction requests generalizing live c with
  | nil => exact ⟨c, h, .still rfl rfl rfl⟩
  | cons request requests ih =>
      obtain ⟨hfirst, hrest⟩ := List.forall_mem_cons.1 haccepts
      have hstep : ∃ c', At c' (live.serve request) ∧ Tallied (live.changed request)
          (live.result request) c live.index.counters c' (live.serve request).index.counters := by
        cases request with
        | batch job => exact serve_batch h hfirst
        | reduceAll sink => exact ⟨c, serve_reduceAll h sink⟩
      obtain ⟨c', hat, htallied⟩ := hstep
      obtain ⟨c'', hat', htallied'⟩ := ih hat hrest
      exact ⟨c'', hat', htallied.trans htallied'⟩

/-- **The statistics balance with the rows.**  Take a new index and any batches and reductions of
its handle, whether they succeed or fail, with receivers that refuse nothing.  Then its entries and
the documents retracted are together as many as the documents mapped; the documents mapped and
deleted are the puts and the deletions of the batches that were committed, and no others; and the
counts are the sums over the results that the batches returned.  The counter of deletions wraps
around at 2^64; the others do not get there. -/
theorem statistics_balance {d : Definition} {config : Config} {host host' : Host β} {ix : Index}
    (hvacant : host.env.committed.Vacant d.name)
    (hcreate : (Index.create d config).exec host = (.ok ix, host')) (state : σ)
    (requests : List (Request σ))
    (haccepts : ∀ request ∈ requests, ∀ e, ¬ request.sink.Refuses e) :
    let live := ofHost host' ix state
    let last := live.serveAll requests
    let stats := last.index.stats
    let results := live.results requests
    last.index.entryCountIn last.committed + stats.retracted = stats.mapped ∧
      stats.mapped = (live.changedAll requests).countP Change.isPut ∧
      stats.deleted = (live.changedAll requests).countP (!·.isPut) % 2 ^ 64 ∧
      stats.mapped = (results.map (·.mapped)).sum ∧
      stats.deleted = (results.map (·.deleted)).sum % 2 ^ 64 ∧
      stats.retracted = (results.map (·.retracted)).sum ∧
      (results.map (·.deleted)).sum = (live.changedAll requests).countP (!·.isPut) := by
  intro live last stats results
  obtain ⟨stored, -, hat⟩ := Index.at_of_create hvacant hcreate state
  obtain ⟨c, hlast, htallied⟩ := serveAll_tallied hat haccepts
  have hempty := Contents.entryCount_initial stored
  have hsize : last.index.entryCountIn last.committed = c.entryCount :=
    EntryTable.size_eq hlast.holds.table
  have hzero : live.index.counters = {} := by
    obtain ⟨-, rfl, -⟩ := Index.create_eq_ok hcreate
    rfl
  have htallied : Tallied (live.changedAll requests) results (.initial stored) {} c
      last.index.counters := hzero ▸ htallied
  obtain ⟨hmapped, hretracted, hdeleted⟩ := htallied.exact hempty
  have hentries := htallied.entries
  rw [hempty, Nat.zero_add] at hentries
  refine ⟨?_, hmapped.trans htallied.puts, htallied.deletes ▸ hdeleted, hmapped, hdeleted,
    hretracted, htallied.deletes⟩
  show _ + last.index.counters.retracted.toNat = last.index.counters.mapped.toNat
  rw [hsize, hmapped, hretracted, hentries]

theorem statistics_balance_of_three :
    ∃ ix host', (Index.create Index.minimal { maxBatchSize := 2 }).exec
        ⟨.fresh (Memory.mk []), #[]⟩ = (.ok ix, host') ∧
      let live := ofHost host' ix ()
      let last := live.serveAll
        [.batch ⟨Sink.discard, [.put ⟨[1], .null⟩, .put ⟨[1], .bool true⟩]⟩,
          .batch ⟨Sink.discard, [.put ⟨[2], .null⟩, .delete [1], .delete [2]]⟩,
          .reduceAll Sink.discard]
      last.index.entryCountIn last.committed + last.index.stats.retracted =
        last.index.stats.mapped := by
  obtain ⟨host', hcreate⟩ := Index.exec_create_minimal { maxBatchSize := 2 }
  refine ⟨_, host', hcreate, (statistics_balance (Snapshot.vacant_empty _) hcreate () _ ?_).1⟩
  intro request hrequest e
  have hsink : request.sink = Sink.discard := by
    simp only [List.mem_cons, List.not_mem_nil, or_false] at hrequest
    rcases hrequest with rfl | rfl | rfl <;> rfl
  rintro ⟨_, _, herror⟩
  rw [hsink] at herror
  cases herror

end Live

end Rollup
