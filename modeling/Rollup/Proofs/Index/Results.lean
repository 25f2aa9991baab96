import Rollup.Proofs.Index.Deliveries
import Rollup.Proofs.Index.Outputs
import Rollup.Proofs.Index.Rebuild
import Mathlib.Logic.Relation

/-!
# Results — what is in a result store is never stale

A result store is *reduced* when it has the output of every group and nothing else (`Reduced`).
A batch that reduces the groups it touched keeps the store reduced (`Kept.runBatch`), and reducing
all groups makes it so, whatever was in it before (`Kept.reduceAll`).  So after any run of batches,
failing ones among them, with closing and opening in between, the store is what reducing everything
into an empty one would give (`results_current`).
-/

namespace Rollup

open Rollup.Action BackendView

namespace Live

variable {β : Type} [Backend β] [LawfulBackend β]

/-! ### The invariant -/

/-- What holds at every point of a run, with these contents in the trees. -/
structure Kept (d : Definition) (c : Contents) (live : Live β ResultStore) : Prop where
  contents : At c live
  logged : Logged live
  definition : live.index.definition = d
  short : c.definition.length < Bytes.capacity 4
  /-- An emptied group has no result. -/
  within : ∀ hash, (live.sink.results.get? hash).isSome = true → c.Occupied hash

/-- The store has the output of every group. -/
def Reduced (live : Live β ResultStore) : Prop :=
  ∀ hash, live.index.reduceIn live.committed hash = .ok (live.sink.results.get? hash)

variable {d : Definition} {c : Contents} {live : Live β ResultStore}

/-! ### Batches -/

theorem Kept.committed (h : Kept d c live) {changes : List Change} {c' : Contents}
    {update : Update} {prepared : Prepared} {live' : Live β ResultStore}
    (hcommitted : Committed live changes c c' update prepared live') (hlogged : Logged live')
    {store : ResultStore} (hstore : store =
      (Index.deliveries update.retracted prepared.outputs).foldl ResultStore.accept live.sink) :
    Kept d c' { live' with sink := store } ∧ (live.index.config.reduceAfterBatch = true →
      Reduced live → Reduced { live' with sink := store }) := by
  have hmoves := hcommitted.moves
  have hholds' : c'.Holds live.index.name update.snapshot := by
    have := hcommitted.holds.holds
    rwa [hcommitted.committed, Index.name, hcommitted.definition] at this
  have hget := hcommitted.get?_results hstore
  -- nothing is taken back that was not touched
  have hwithin : ∀ hash, update.retracted.contains hash = true →
      update.touched.contains hash = true := hmoves.within fun _ hr => (by cases hr)
  refine ⟨⟨⟨hcommitted.holds.holds, hcommitted.holds.lockstep, hcommitted.holds.counter,
    hcommitted.holds.definition⟩, ⟨hlogged.intact, hlogged.replays⟩,
    hcommitted.definition.trans h.definition, hmoves.definition ▸ h.short, fun hash hsome => ?_⟩,
    fun hon hreduced hash => ?_⟩
  · -- what is left of the old results is of groups that still have a blob
    rcases hget hash with houtput | ⟨hold, -⟩
    · exact (Index.isSome_iff_of_reduceIn hholds' houtput).1 hsome
    · have hsome : (store.results.get? hash).isSome = true := hsome
      rw [hold] at hsome
      split at hsome
      · cases hsome
      · next hr => exact hmoves.unretracted hash hr (h.within hash hsome)
  · show live'.index.reduceIn live'.committed hash = .ok (store.results.get? hash)
    rw [Index.reduceIn_of_definition hcommitted.definition, hcommitted.committed]
    rcases hget hash with houtput | ⟨hold, huntouched⟩
    · exact houtput
    · -- an untouched group reduces to what it did before
      obtain ⟨hkeys, hblobs⟩ := hmoves.untouched hash (huntouched hon)
      rw [Index.reduceIn_congr h.contents.holds hholds' hkeys hblobs, hold,
        if_neg (mt (hwithin hash) (huntouched hon))]
      exact hreduced hash

/-- **A batch** keeps the store reduced, if it reduces. -/
theorem Kept.runBatch (h : Kept d c live) {changes : List Change} (hsafe : live.Safe changes) :
    ∃ c' live', ((runBatch ResultStore.sink changes).exec live).2 = live' ∧ Kept d c' live' ∧
      live'.index.config = live.index.config ∧
      (live.index.config.reduceAfterBatch = true → Reduced live → Reduced live') := by
  have hlogged := logged_runBatch h.logged hsafe ResultStore.sink
  rw [exec_runBatch_store] at hlogged ⊢
  rcases commitBatch_at h.contents changes with
    ⟨e, live', hexec, hsame, hcommitted, hat⟩ | ⟨c', update, prepared, live', hcommitted, hexec⟩ <;>
    rw [hexec] at hlogged ⊢
  · refine ⟨c, live', rfl, ⟨hat, hlogged, hsame.definition.trans h.definition, h.short, ?_⟩,
      hsame.config, fun _ hreduced hash => ?_⟩
    · rw [hsame.sink]
      exact h.within
    · rw [hsame.sink, hcommitted, Index.reduceIn_of_definition hsame.definition]
      exact hreduced hash
  · obtain ⟨hkept, hreduced⟩ := h.committed hcommitted ⟨hlogged.intact, hlogged.replays⟩ rfl
    rw [← hcommitted.sink] at hkept hreduced
    exact ⟨c', _, rfl, hkept, hcommitted.config, hreduced⟩

/-! ### Reducing everything -/

/-- Some groups were reduced into the store of an index, up to one that failed. -/
structure Wrote (live : Live β ResultStore) (hashes : List GroupHash)
    (answer : Except IndexError Nat) (store : ResultStore) : Prop where
  /-- A result is what it was, or it is the output of its group. -/
  fresh : ∀ k, store.results.get? k = live.sink.results.get? k ∨
    ∃ v, live.index.reduceIn live.committed k = .ok (some v) ∧ store.results.get? k = some v
  written : ∀ n, answer = .ok n → ∀ k ∈ hashes, ∃ output,
    live.index.reduceIn live.committed k = .ok output ∧
      ∀ v, output = some v → store.results.get? k = some v
  succeeds : (∀ k ∈ hashes, ∃ output, live.index.reduceIn live.committed k = .ok output) →
    ∃ n, answer = .ok n

namespace Wrote

variable {live : Live β ResultStore} {hash : GroupHash} {hashes : List GroupHash}
  {answer : Except IndexError Nat} {store : ResultStore}

omit [Backend β] [LawfulBackend β]

theorem error {e : IndexError} (h : live.index.reduceIn live.committed hash = .error e) :
    Wrote live (hash :: hashes) (.error e) live.sink where
  fresh _ := .inl rfl
  written _ hn := (by cases hn)
  succeeds hall := by
    obtain ⟨output, hok⟩ := hall hash List.mem_cons_self
    rw [h] at hok
    cases hok

/-- A group without an output is left out. -/
theorem skip (h : live.index.reduceIn live.committed hash = .ok none)
    (hrest : Wrote live hashes answer store) : Wrote live (hash :: hashes) answer store where
  fresh := hrest.fresh
  written n hn := List.forall_mem_cons.2 ⟨⟨none, h, fun _ hv => (by cases hv)⟩, hrest.written n hn⟩
  succeeds hall := hrest.succeeds fun k hk => hall k (List.mem_cons_of_mem _ hk)

theorem write {v : Value} (h : live.index.reduceIn live.committed hash = .ok (some v))
    (hrest : Wrote { live with sink := live.sink.accept (.write hash v) } hashes answer store) :
    Wrote live (hash :: hashes) (answer.map (· + 1)) store where
  fresh k := by
    rcases hrest.fresh k with hk | hk
    · rw [hk, ResultStore.get?_accept_write]
      split
      · next e => exact .inr ⟨v, e ▸ h, rfl⟩
      · exact .inl rfl
    · exact .inr hk
  written n hn := by
    obtain ⟨m, rfl⟩ : ∃ m, answer = .ok m := by
      cases answer with
      | error e => cases hn
      | ok m => exact ⟨m, rfl⟩
    refine List.forall_mem_cons.2 ⟨⟨some v, h, ?_⟩, hrest.written m rfl⟩
    rintro _ ⟨⟩
    -- the hash may occur again, with the same output
    rcases hrest.fresh hash with hk | ⟨w, hw, hk⟩
    · rw [hk, ResultStore.get?_accept_write, if_pos rfl]
    · have hw : live.index.reduceIn live.committed hash = .ok (some w) := hw
      rw [h] at hw
      cases hw
      exact hk
  succeeds hall := by
    obtain ⟨n, rfl⟩ := hrest.succeeds fun k hk => hall k (List.mem_cons_of_mem _ hk)
    exact ⟨n + 1, rfl⟩

end Wrote

omit [Backend β] [LawfulBackend β] in
theorem exec_reduceGroups (hashes : List GroupHash) (live : Live β ResultStore) :
    ∃ answer store, (reduceGroups ResultStore.sink hashes).exec live =
      (answer, { live with sink := store }) ∧ Wrote live hashes answer store := by
  induction hashes generalizing live with
  | nil => exact ⟨.ok 0, live.sink, rfl, fun _ => .inl rfl, by simp, fun _ => ⟨0, rfl⟩⟩
  | cons hash hashes ih =>
      rw [reduceGroups, exec_bind_ok (exec_get live)]
      cases houtput : live.index.reduceIn live.committed hash with
      | error e => exact ⟨.error e, live.sink, rfl, .error houtput⟩
      | ok output =>
          rw [exec_bind_ok (exec_lift _ _)]
          cases output with
          | none =>
              obtain ⟨answer, store, hexec, h⟩ := ih live
              exact ⟨answer, store, hexec, .skip houtput h⟩
          | some v =>
              obtain ⟨answer, store, hexec, h⟩ :=
                ih { live with sink := live.sink.accept (.write hash v) }
              refine ⟨answer.map (· + 1), store, ?_, .write houtput h⟩
              rw [exec_bind_ok (exec_deliverAll_store [.write hash v] live)]
              show ((reduceGroups ResultStore.sink hashes >>= fun n => pure (n + 1)).exec
                { live with sink := live.sink.accept (.write hash v) }) = _
              rw [exec_bind, hexec]
              cases answer <;> rfl

omit [Backend β] [LawfulBackend β] in
theorem exec_reduceAll (h : At c live) : ∃ hashes answer store live',
    (∀ hash, hash ∈ hashes ↔ c.Occupied hash) ∧ Wrote live hashes answer store ∧
      (reduceAll ResultStore.sink).exec live = (answer, live') ∧
      Quiet { live with sink := store } live' := by
  obtain ⟨hashes, hfound, hmem⟩ := Index.hashesIn_eq h.holds h.lockstep
  obtain ⟨answer, store, hexec, hwrote⟩ := exec_reduceGroups hashes live
  have hall : (reduceAll ResultStore.sink).exec live = (do
      let written ← reduceGroups ResultStore.sink hashes
      count (Index.countReduced written)
      report (.allReduced live.index.name written)
      return written).exec live := by
    rw [reduceAll, exec_bind_ok (exec_get live), hfound, exec_bind_ok (exec_lift _ _)]
  rw [exec_bind, hexec] at hall
  cases answer with
  | error e => exact ⟨hashes, .error e, store, _, hmem, hwrote, hall, ⟨⟨rfl, rfl, rfl⟩, rfl, rfl⟩⟩
  | ok n => exact ⟨hashes, .ok n, store, _, hmem, hwrote, hall, ⟨⟨rfl, rfl, rfl⟩, rfl, rfl⟩⟩

/-- **Reducing everything** makes the store reduced, if it succeeds; it does if every group can be
reduced. -/
theorem Kept.reduceAll (h : Kept d c live) : ∃ answer live',
    (reduceAll ResultStore.sink).exec live = (answer, live') ∧ Kept d c live' ∧
      live'.index.config = live.index.config ∧ live'.committed = live.committed ∧
      (∀ n, answer = .ok n → Reduced live') ∧
      ((∀ hash, ∃ output, live.index.reduceIn live.committed hash = .ok output) →
        ∃ n, answer = .ok n) := by
  obtain ⟨hashes, answer, store, live', hmem, hwrote, hexec, hquiet⟩ := exec_reduceAll h.contents
  have hcommitted : live'.committed = live.committed := congrArg Environment.committed hquiet.env
  have hsink : live'.sink = store := hquiet.sink
  have hreduceIn : live'.index.reduceIn = live.index.reduceIn :=
    Index.reduceIn_of_definition hquiet.definition
  have hwithin : ∀ hash, (store.results.get? hash).isSome = true → c.Occupied hash :=
    fun hash hsome => by
      rcases hwrote.fresh hash with hold | ⟨v, hv, -⟩
      · exact h.within hash (hold ▸ hsome)
      · exact (Index.isSome_iff_of_reduceIn h.contents.holds hv).1 rfl
  refine ⟨answer, live', hexec, ⟨?_, ⟨?_, ?_⟩, hquiet.definition.trans h.definition, h.short, ?_⟩,
    hquiet.config, hcommitted, fun n hn hash => ?_, fun hall => hwrote.succeeds fun k _ => hall k⟩
  · exact h.contents.congr hquiet.definition hcommitted
      (hquiet.lastEtag ▸ h.contents.counter)
  · rw [hquiet.env]
    exact h.logged.intact
  · rw [hcommitted, hquiet.env]
    exact h.logged.replays
  · rw [hsink]
    exact hwithin
  · rw [hreduceIn, hcommitted, hsink]
    by_cases hocc : c.Occupied hash
    · obtain ⟨output, houtput, hstored⟩ := hwrote.written n hn hash ((hmem hash).2 hocc)
      obtain ⟨v, rfl⟩ := Option.isSome_iff_exists.1
        ((Index.isSome_iff_of_reduceIn h.contents.holds houtput).2 hocc)
      rw [houtput, hstored v rfl]
    · -- no output, and by the invariant no result either
      rw [Index.reduceIn_of_not_occupied h.contents.holds h.contents.lockstep hocc,
        Option.not_isSome_iff_eq_none.1 (mt (hwithin hash) hocc)]

/-! ### Runs -/

/-- What an index can do next: run a batch, reduce everything, or be closed and opened again.
It is opened with an allowed configuration. -/
inductive Advance (allowed : Config → Prop) (live : Live β ResultStore) :
    Live β ResultStore → Prop where
  | batch (changes : List Change) (hsafe : live.Safe changes) :
      Advance allowed live ((runBatch ResultStore.sink changes).exec live).2
  | reduceAll : Advance allowed live ((Live.reduceAll ResultStore.sink).exec live).2
  | reopen {config : Config} {live' : Live β ResultStore} (hallowed : allowed config)
      (h : Reopened live config live') : Advance allowed live live'

/-- A run of an index. -/
abbrev Run (allowed : Config → Prop) : Live β ResultStore → Live β ResultStore → Prop :=
  Relation.ReflTransGen (Advance allowed)

variable {allowed : Config → Prop} {live' : Live β ResultStore}

/-- **What comes next** keeps the invariant, and the store reduced if all configurations reduce. -/
theorem Kept.advance (h : Kept d c live) (hvalid : d.validate = .ok ()) (hparsed : d.Parsed)
    (hallowed : allowed live.index.config) (hadvance : Advance allowed live live') :
    ∃ c', Kept d c' live' ∧ allowed live'.index.config ∧
      ((∀ config, allowed config → config.reduceAfterBatch = true) → Reduced live →
        Reduced live') := by
  cases hadvance with
  | batch changes hsafe =>
      obtain ⟨c', live', hexec, hkept, hconfig, hreduced⟩ := h.runBatch hsafe
      rw [hexec, hconfig]
      exact ⟨c', hkept, hallowed, fun hall => hreduced (hall _ hallowed)⟩
  | reduceAll =>
      obtain ⟨answer, live', hexec, hkept, hconfig, -, hok, hsucceeds⟩ := h.reduceAll
      rw [hexec, hconfig]
      refine ⟨c, hkept, hallowed, fun _ hreduced => ?_⟩
      obtain ⟨n, hn⟩ := hsucceeds fun hash => ⟨_, hreduced hash⟩
      exact hok n hn
  | reopen hnew hreopened =>
      have hdefinition := h.definition
      obtain ⟨hat, hlogged, hsame, hconfig, hcommitted⟩ := hreopened.found h.contents h.logged
        (hdefinition ▸ hvalid) (hdefinition ▸ hparsed) h.short
      refine ⟨c, ⟨hat, hlogged, hsame.trans hdefinition, h.short, ?_⟩, hconfig ▸ hnew,
        fun _ hreduced hash => ?_⟩
      · rw [hreopened.receiver]
        exact h.within
      · rw [hreopened.receiver, hcommitted, Index.reduceIn_of_definition hsame]
        exact hreduced hash

theorem Kept.run (h : Kept d c live) (hvalid : d.validate = .ok ()) (hparsed : d.Parsed)
    (hallowed : allowed live.index.config) (hreduced : Reduced live)
    (hrun : Run allowed live live') :
    ∃ c', Kept d c' live' ∧ ((∀ config, allowed config → config.reduceAfterBatch = true) →
      Reduced live') := by
  suffices ∃ c', Kept d c' live' ∧ allowed live'.index.config ∧
      ((∀ config, allowed config → config.reduceAfterBatch = true) → Reduced live') by
    obtain ⟨c', hkept, -, hall⟩ := this
    exact ⟨c', hkept, hall⟩
  induction hrun with
  | refl => exact ⟨c, h, hallowed, fun _ => hreduced⟩
  | tail _ hadvance ih =>
      obtain ⟨c₁, hkept, hallowed₁, hreduced₁⟩ := ih
      obtain ⟨c₂, hkept₂, hallowed₂, hstep⟩ := hkept.advance hvalid hparsed hallowed₁ hadvance
      exact ⟨c₂, hkept₂, hallowed₂, fun hall => hstep hall (hreduced₁ hall)⟩

/-- Batches that all succeed, with no call of the backend failing, are a run. -/
theorem run_of_runBatches (hsound : Sound live.env.log.backend) {parts : List (List Change)}
    {result : BatchResult}
    (h : (runBatches ResultStore.sink parts).exec live = (.ok result, live')) :
    Run allowed live live' := by
  induction parts generalizing live result with
  | nil =>
      cases h
      exact .refl
  | cons part parts ih =>
      rw [runBatches, exec_bind_eq_ok] at h
      obtain ⟨first, live₁, hfirst, h⟩ := h
      rw [exec_bind_eq_ok] at h
      obtain ⟨rest, live₂, hrest, h⟩ := h
      cases h
      have hadvance : Advance allowed live ((runBatch ResultStore.sink part).exec live).2 :=
        .batch part (safe_of_sound hsound part)
      have hsound₁ := sound_runBatch hsound ResultStore.sink part
      rw [hfirst] at hadvance hsound₁
      exact .head hadvance (ih hsound₁ hrest)

/-! ### The results -/

/-- The results are those of the committed groups. -/
structure Current (live : Live β ResultStore) : Prop where
  /-- They are what reducing everything would write into an empty store. -/
  rewritten : ∃ n live', (reduceAll ResultStore.sink).exec { live with sink := .empty } =
    (.ok n, live') ∧ live'.sink.results = live.sink.results
  /-- Each is the reduction of its bucket, read whole and in etag order, with the recorded key. -/
  reduced : ∀ hash, ∃ entries key, live.index.bucketIn live.committed hash = .ok entries ∧
    (entries.Pairwise fun x y => x.1.toNat < y.1.toNat) ∧
    (∀ etag v, (etag, v) ∈ entries ↔
      ∃ blob, live.committed.cell (bucketTree live.index.name hash) etag.encode = some blob ∧
        Value.decode blob = .ok v) ∧
    live.index.groupKeyIn live.committed hash = .ok key ∧
    (key.isSome = true ↔ (live.sink.results.get? hash).isSome = true) ∧
    Reduction.reduce live.index.definition key (entries.map (·.2)) =
      .ok (live.sink.results.get? hash)
  /-- There is one for each bucket that is not empty. -/
  occupied : ∀ hash, (live.sink.results.get? hash).isSome = true ↔
    ∃ k, live.committed.cell (bucketTree live.index.name hash) k ≠ none

omit [Backend β] [LawfulBackend β] in
/-- Where a document is live there is a result. -/
theorem Current.exists_result (h : Current live) {ix : Index} {ledger : Ledger}
    (hstored : ledger.Stored ix live.committed) (hname : live.index.name = ix.name)
    {key : DocumentKey} {data : Value} (hlive : ledger.data key = some data) :
    ∃ hash, (live.sink.results.get? hash).isSome = true := by
  obtain ⟨etag, hash, blob, -, hhas, hc, -⟩ := hstored.total key data hlive
  have hblob := (hstored.bucket hash _ blob).2 ⟨key, etag, data, hhas, hc, rfl⟩
  refine ⟨hash, (h.occupied hash).2 ⟨etag.encode, ?_⟩⟩
  rw [hname, hblob]
  exact Option.some_ne_none blob

theorem Kept.current (h : Kept d c live) (hreduced : Reduced live) : Current live where
  rewritten := by
    have hempty : Kept d c { live with sink := .empty } :=
      ⟨⟨h.contents.holds, h.contents.lockstep, h.contents.counter, h.contents.definition⟩,
        ⟨h.logged.intact, h.logged.replays⟩, h.definition, h.short, fun _ hsome => (by cases hsome)⟩
    obtain ⟨answer, live', hexec, hkept, -, hcommitted, hok, hsucceeds⟩ := hempty.reduceAll
    obtain ⟨n, rfl⟩ := hsucceeds fun hash => ⟨_, hreduced hash⟩
    refine ⟨n, live', hexec, OrderedMap.ext_get? fun hash => ?_⟩
    have hnew := hok n rfl hash
    rw [hcommitted, Index.reduceIn_of_definition (hkept.definition.trans h.definition.symm)] at hnew
    exact Except.ok.inj (hnew.symm.trans (hreduced hash))
  reduced hash := by
    obtain ⟨entries, key, hbucket, hkey, hreduce⟩ := Index.reduceIn_eq_ok_iff.1 (hreduced hash)
    refine ⟨entries, key, hbucket, Bucket.entries_ascending hbucket,
      fun _ _ => Bucket.mem_entries_iff hbucket, hkey, ?_, hreduce⟩
    rw [Index.isSome_iff_of_groupKeyIn h.contents.holds h.contents.lockstep hkey,
      Index.isSome_iff_of_reduceIn h.contents.holds (hreduced hash)]
  occupied hash := by
    rw [Index.isSome_iff_of_reduceIn h.contents.holds (hreduced hash),
      Index.occupied_iff h.contents.holds]

omit [LawfulBackend β] in
/-- A new index has no results. -/
theorem reduced_of_create {d : Definition} {config : Config} {host host' : Host β} {ix : Index}
    (hvacant : host.env.committed.Vacant d.name)
    (hcreate : (Index.create d config).exec host = (.ok ix, host')) :
    Reduced (ofHost host' ix ResultStore.empty) := by
  obtain ⟨stored, -, hat⟩ := Index.at_of_create hvacant hcreate ResultStore.empty
  exact fun hash => Index.reduceIn_of_not_occupied hat.holds hat.lockstep fun ⟨_, hblob⟩ =>
    (by cases hblob)

/-- The invariant holds of a new index. -/
theorem kept_of_create {d : Definition} {config : Config} {host host' : Host β} {ix : Index}
    (hvacant : host.env.committed.Vacant d.name) (hintact : Intact host.env.log.backend)
    (hreplays : Environment.Replays host.env host.env.committed)
    (hcreate : (Index.create d config).exec host = (.ok ix, host')) :
    ∃ c, Kept d c (ofHost host' ix ResultStore.empty) := by
  obtain ⟨-, hix, -⟩ := Index.create_eq_ok hcreate
  obtain ⟨stored, hshort, hat⟩ := Index.at_of_create hvacant hcreate ResultStore.empty
  exact ⟨.initial stored, hat, logged_of_create hintact hreplays hcreate _, by rw [hix]; rfl,
    hshort, fun _ hsome => (by cases hsome)⟩

/-- **Results never go stale.**  After any run of an index from its creation on, with every
configuration reducing after batches, the store has the outputs of the committed groups and nothing
else; with any configurations it has after everything was reduced. -/
theorem results_current (allowed : Config → Prop) {d : Definition} {config : Config}
    {host host' : Host β} {ix : Index} (hparsed : d.Parsed)
    (hvacant : host.env.committed.Vacant d.name) (hintact : Intact host.env.log.backend)
    (hreplays : Environment.Replays host.env host.env.committed)
    (hcreate : (Index.create d config).exec host = (.ok ix, host')) (hallowed : allowed config)
    {live : Live β ResultStore} (hrun : Run allowed (ofHost host' ix .empty) live) :
    live.index.definition = d ∧
    ((∀ config, allowed config → config.reduceAfterBatch = true) → Current live) ∧
    ∀ n live', (reduceAll ResultStore.sink).exec live = (.ok n, live') → Current live' := by
  obtain ⟨hvalid, hix, -⟩ := Index.create_eq_ok hcreate
  obtain ⟨c₀, hkept⟩ := kept_of_create hvacant hintact hreplays hcreate
  have hreduced := reduced_of_create hvacant hcreate
  have hconfig : allowed (ofHost host' ix ResultStore.empty).index.config := by
    rw [hix]
    exact hallowed
  obtain ⟨c, hlive, hall⟩ := hkept.run hvalid hparsed hconfig hreduced hrun
  refine ⟨hlive.definition, fun hon => hlive.current (hall hon), fun n live' hexec => ?_⟩
  obtain ⟨answer, live₁, hexec₁, hkept₁, -, -, hok, -⟩ := hlive.reduceAll
  rw [hexec] at hexec₁
  cases hexec₁
  exact hkept₁.current (hok n rfl)

end Live

/-- What a new index carries out: a group is filled, emptied, and filled again. -/
theorem Index.carriesOut_refilled : carriesOut ⟨minimal, {}, .zero, {}⟩ minimalTrees .zero
    [[.put ⟨[1], .null⟩], [.delete [1]], [.put ⟨[2], .null⟩]] = true := by
  decide +kernel

namespace Live

/-- A group is filled, emptied and filled again, and the index is opened again: there is a result,
and the results are current. -/
theorem results_current_of_refilled :
    ∃ ix host', (Index.create Index.minimal {}).exec ⟨.fresh (Memory.mk []), #[]⟩ =
        (.ok ix, host') ∧
      ∃ result live live',
        (runBatches ResultStore.sink
          [[.put ⟨[1], .null⟩], [.delete [1]], [.put ⟨[2], .null⟩]]).exec
            (ofHost host' ix .empty) = (.ok result, live) ∧
        Reopened live {} live' ∧ Current live' ∧
          ∃ hash, (live'.sink.results.get? hash).isSome = true := by
  obtain ⟨host', hcreate⟩ := Index.exec_create_minimal {}
  have hvacant := Snapshot.vacant_empty Index.minimal.name
  have hreplays : Environment.Replays (.fresh (Memory.mk [])) Snapshot.empty :=
    Environment.Unwritten.replays ⟨trivial, rfl, rfl, rfl⟩
  obtain ⟨result, live, hbatches⟩ := exists_runBatches_of_create ResultStore.willing_sink trivial
    hcreate (Index.committed_of_create_minimal hcreate) Index.carriesOut_refilled .empty
  have hrun : Run (fun config => config.reduceAfterBatch = true) _ live :=
    run_of_runBatches trivial hbatches
  obtain ⟨c₀, hnew⟩ := kept_of_create hvacant trivial hreplays hcreate
  obtain ⟨c, hkept, -⟩ := hnew.run rfl Index.parsed_minimal (by exact rfl)
    (reduced_of_create hvacant hcreate) hrun
  -- the index can be opened again
  have hdefinition := hkept.definition
  obtain ⟨live', hreopened⟩ := hkept.contents.exists_reopened hkept.logged
    (hdefinition ▸ rfl) (hdefinition ▸ Index.parsed_minimal) (hdefinition ▸ Index.within_minimal)
    trivial {}
  obtain ⟨-, -, hsame, -, hcommitted⟩ := hreopened.found hkept.contents hkept.logged
    (hdefinition ▸ rfl) (hdefinition ▸ Index.parsed_minimal) hkept.short
  obtain ⟨-, hcurrent, -⟩ := results_current (·.reduceAfterBatch = true) Index.parsed_minimal
    hvacant trivial hreplays hcreate rfl (hrun.tail (.reopen rfl hreopened))
  have hcurrent := hcurrent fun _ hon => hon
  refine ⟨_, host', hcreate, result, live, live', hbatches, hreopened, hcurrent, ?_⟩
  -- the second document is live
  obtain ⟨hlive, hdata⟩ :=
    @batches_of_runBatches _ _ _ _ (ofHost host' _ ResultStore.empty, .empty) _ _ _ hbatches
  obtain ⟨c₁, hstart⟩ := reached_of_create hvacant hcreate ResultStore.empty
  obtain ⟨c₂, hreached⟩ := batches_reached hstart ResultStore.sink
    [[.put ⟨[1], .null⟩], [.delete [1]], [.put ⟨[2], .null⟩]]
  have hstored := hreached.stored
  rw [hlive, ← hcommitted] at hstored
  exact hcurrent.exists_result hstored (by rw [Index.name, hsame, hdefinition]; rfl)
    (congrFun hdata [2])

end Live

end Rollup
