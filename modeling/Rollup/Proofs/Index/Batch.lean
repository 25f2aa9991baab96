import Rollup.Proofs.Index.Changes
import Rollup.Proofs.Storage.Environment

/-!
# Batches — the ends of a batch

A batch ends in one of three ways (`commitBatch_cases`): it stops before its commit and nothing but
events and statistics has changed (`Quiet`), its commit fails, or it is committed.  In the last two
the store is what the commit of its transaction leaves, and the last etag is the one given out last
(`After`).

On the contents of an index (`At`) a batch that fails does nothing, and one that is committed
applies its changes in order (`commitBatch_at`).
-/

namespace Rollup

open Rollup.Action Update

/-- The receiver refuses some delivery with this. -/
def Sink.Refuses {σ : Type} (sink : Sink σ) (e : IndexError) : Prop :=
  ∃ d state, ((sink.deliver d).exec state).1 = .error e

namespace Index

/-! ### Inside the transaction -/

/-- Changes keep what removing and mapping documents keeps. -/
theorem preserves_changes {R : Update → Prop} {ix : Index}
    (hremove : ∀ key, Preserves R (ix.removeDocument key))
    (hmap : ∀ document, Preserves R (ix.mapDocument document)) (changes : List Change) :
    Preserves R (ix.applyChanges changes) := by
  induction changes with
  | nil => exact preserves_pure _
  | cons change changes ih =>
      have hchange : Preserves R (ix.applyChange change) := by
        cases change with
        | put document =>
            exact (hremove _).bind fun _ => (hmap _).bind fun _ => preserves_pure _
        | delete key => exact (hremove _).bind fun _ => preserves_pure _
      exact (hchange.adapt _).bind fun _ => ih.bind fun _ => preserves_pure _

theorem preserves_applyChanges {P : Transaction → Prop}
    (hP : Transaction.Kept (fun _ => True) P) (ix : Index) (changes : List Change) :
    Preserves (Works ix.name P) (ix.applyChanges changes) :=
  preserves_changes (preserves_removeDocument hP ix (fun _ => trivial) fun _ _ _ => trivial)
    (preserves_mapDocument hP ix (fun _ => trivial) (fun _ _ => trivial) fun _ _ _ => trivial)
    changes

/-- The outputs of the groups that an update has touched. -/
def outputsOf (ix : Index) (u : Update) : Except IndexError (List (GroupHash × Option Value)) :=
  if ix.config.reduceAfterBatch then
    u.touched.keys.mapM fun hash => return (hash, ← ix.reduceIn u.snapshot hash)
  else .ok []

theorem exec_outputs (ix : Index) (u : Update) : ix.outputs.exec u = (ix.outputsOf u, u) := by
  rw [outputs, outputsOf]
  split <;> rfl

variable {ix : Index} {c : Contents} {u u' : Update}

/-- Changes that are all applied, and outputs that are all there. -/
theorem exec_prepare_eq_ok {changes : List Change} {prepared : Prepared}
    (hexec : (ix.prepare changes).exec u = (.ok prepared, u')) :
    ∃ result, (ix.applyChanges changes).exec u = (.ok result, u') ∧
      prepared.result = { result with reduced := prepared.outputs.length } ∧
      ix.outputsOf u' = .ok prepared.outputs := by
  rw [prepare, exec_bind_eq_ok] at hexec
  obtain ⟨result, u₁, hchanges, hexec⟩ := hexec
  rw [exec_bind_eq_ok] at hexec
  obtain ⟨outputs, u₂, houtputs, hexec⟩ := hexec
  rw [exec_outputs, Prod.mk.injEq] at houtputs
  obtain ⟨houtputs, rfl⟩ := houtputs
  cases hexec
  exact ⟨result, hchanges, rfl, houtputs⟩

theorem exec_prepare (h : Shows c u) (hl : c.Lockstep) (hix : u.index = ix.name)
    {changes : List Change} {prepared : Prepared}
    (hexec : (ix.prepare changes).exec u = (.ok prepared, u')) :
    ∃ c' result, AppliedAll ix changes c c' result ∧ Moves c u c' u' ∧
      prepared.result = { result with reduced := prepared.outputs.length } ∧
      ix.outputsOf u' = .ok prepared.outputs := by
  obtain ⟨result, hchanges, hresult, houtputs⟩ := exec_prepare_eq_ok hexec
  obtain ⟨c', happlied, hmoves⟩ := exec_applyChanges h hl hix hchanges
  exact ⟨c', result, happlied, hmoves, hresult, houtputs⟩

theorem preserves_prepare {P : Transaction → Prop} (hP : Transaction.Kept (fun _ => True) P)
    (ix : Index) (changes : List Change) : Preserves (Works ix.name P) (ix.prepare changes) := by
  refine (preserves_applyChanges hP ix changes).bind fun _ => Preserves.bind (fun u hu => ?_)
    fun _ => preserves_pure _
  rw [exec_outputs]
  exact hu

/-- The last etag only grows. -/
theorem AppliedAll.last_le {changes : List Change} {c c' : Contents} {result : BatchResult}
    (h : AppliedAll ix changes c c' result) : c.last.toNat ≤ c'.last.toNat := by
  induction h with
  | nil => exact Nat.le_refl _
  | cons h _ ih =>
      refine Nat.le_trans ?_ ih
      cases h with
      | put _ _ _ hlt => exact Nat.le_of_lt hlt
      | delete => exact Nat.le_of_eq (by rw [Contents.last_removeAll])

/-- It is the one given out last. -/
theorem AppliedAll.last_eq {changes : List Change} {c c' : Contents} {result : BatchResult}
    (h : AppliedAll ix changes c c' result) : c'.last = result.etags.getLast?.getD c.last := by
  induction h with
  | nil => rfl
  | @cons c c₁ c₂ change changes first rest h _ ih =>
      have hfirst : c₁.last = first.etags.getLast?.getD c.last := by
        cases h with
        | put => rfl
        | delete => exact Contents.last_removeAll ..
      show c₂.last = (first.etags ++ rest.etags).getLast?.getD c.last
      rw [ih, hfirst, List.getLast?_append]
      cases rest.etags.getLast? <;> rfl

end Index

namespace Live

variable {β σ : Type}

/-- The index is the same but for its last etag and statistics, and so is the receiver. -/
structure Same (live live' : Live β σ) : Prop where
  definition : live'.index.definition = live.index.definition
  config : live'.index.config = live.index.config
  sink : live'.sink = live.sink

/-- Nothing but events and statistics has changed. -/
structure Quiet (live live' : Live β σ) : Prop extends Same live live' where
  env : live'.env = live.env
  lastEtag : live'.index.lastEtag = live.index.lastEtag

variable [Backend β]

/-- What the commit of an update answers, and the store it leaves. -/
def committing (live : Live β σ) (update : Update) : Except StorageError Unit × Environment β :=
  (Environment.commit update.txn live.index.config.syncOnCommit).exec live.env

/-- The commit of an update has been tried. -/
structure After (live : Live β σ) (update : Update) (live' : Live β σ) : Prop
    extends Same live live' where
  env : live'.env = (live.committing update).2
  lastEtag : live'.index.lastEtag = update.lastEtag

theorem exec_commit (txn : Transaction) (live : Live β σ) :
    ∃ events, (commit txn).exec live =
      (((Environment.commit txn live.index.config.syncOnCommit).exec live.env).1.mapError .storage,
        { live with env := ((Environment.commit txn live.index.config.syncOnCommit).exec live.env).2
                    events }) := by
  obtain ⟨events, hhost⟩ :=
    Environment.exec_hostCommit txn live.index.config.syncOnCommit live.toHost
  refine ⟨events, ?_⟩
  rw [commit, exec_bind_ok (exec_get live), exec_within, hhost]

/-- The batch gets to its commit. -/
structure Ready (live : Live β σ) (changes : List Change) (prepared : Prepared)
    (update : Update) : Prop where
  size : ¬ live.index.config.maxBatchSize < changes.length
  stage : live.stage changes = (.ok prepared, update)

/-- A ready batch at its commit: the events of its transaction are reported, and its etags are given
out. -/
def atCommit (live : Live β σ) (update : Update) : Live β σ :=
  { live with
    events := live.events ++ update.events.push update.released
    index := { live.index with lastEtag := update.lastEtag } }

/-- The commit of a ready batch, and what is counted then. -/
def conclude (index : String) (changes : List Change) (prepared : Prepared) (update : Update) :
    Step β σ (BatchResult × List Delivery) := do
  try commit update.txn
  catch e =>
    count Index.countFailure
    report (.commitFailed index e.message)
    throw e
  count (Index.countBatch prepared.result)
  report (.batchCommitted index changes.length prepared.result.etags update.retracted.size
    prepared.outputs.length)
  return (prepared.result, Index.deliveries update.retracted prepared.outputs)

theorem exec_commitBatch_eq {live : Live β σ} {changes : List Change} {prepared : Prepared}
    {update : Update} (h : live.Ready changes prepared update) : (commitBatch changes).exec live =
      (conclude live.index.name changes prepared update).exec (live.atCommit update) := by
  rw [commitBatch, exec_bind_ok (exec_get live)]
  dsimp only
  rw [if_neg h.size, h.stage]
  rfl

/-- A batch that is ready: what its commit answers decides what comes of it. -/
theorem exec_commitBatch_of_ready {live : Live β σ} {changes : List Change} {prepared : Prepared}
    {update : Update} (h : live.Ready changes prepared update) :
    ∃ live', After live update live' ∧ (commitBatch changes).exec live =
      (((live.committing update).1.mapError .storage).map fun _ =>
        (prepared.result, Index.deliveries update.retracted prepared.outputs), live') := by
  obtain ⟨events, hcommit⟩ := exec_commit update.txn (live.atCommit update)
  have hsame : (Environment.commit update.txn
      (live.atCommit update).index.config.syncOnCommit).exec (live.atCommit update).env =
      live.committing update := rfl
  rw [exec_commitBatch_eq h, conclude, exec_bind, exec_tryCatch, hcommit, hsame]
  rcases hanswer : live.committing update with ⟨_ | _, env⟩
  · refine ⟨_, ?_, rfl⟩
    exact ⟨⟨rfl, rfl, rfl⟩, by rw [hanswer]; rfl, rfl⟩
  · refine ⟨_, ?_, rfl⟩
    exact ⟨⟨rfl, rfl, rfl⟩, by rw [hanswer]; rfl, rfl⟩

/-- **The ends of a batch.** -/
theorem commitBatch_cases (live : Live β σ) (changes : List Change) :
    (∃ e live', (commitBatch changes).exec live = (.error e, live') ∧ Quiet live live' ∧
      ∀ prepared update, ¬ live.Ready changes prepared update) ∨
    ∃ prepared update live', live.Ready changes prepared update ∧ After live update live' ∧
      ((∃ e, (live.committing update).1 = .error e ∧
          (commitBatch changes).exec live = (.error (.storage e), live')) ∨
        (live.committing update).1 = .ok () ∧
          (commitBatch changes).exec live =
            (.ok (prepared.result, Index.deliveries update.retracted prepared.outputs),
              live')) := by
  by_cases hsize : live.index.config.maxBatchSize < changes.length
  · refine .inl ⟨.refused (.batchTooLarge changes.length live.index.config.maxBatchSize), live, ?_,
      ⟨⟨rfl, rfl, rfl⟩, rfl, rfl⟩, fun _ _ hready => hready.size hsize⟩
    rw [commitBatch, exec_bind_ok (exec_get live)]
    dsimp only
    rw [if_pos hsize]
    rfl
  · rcases hstage : live.stage changes with ⟨e | prepared, update⟩
    · have hexec : ∃ live', (commitBatch changes).exec live = (.error e, live') ∧
          Quiet live live' := by
        rw [commitBatch, exec_bind_ok (exec_get live)]
        dsimp only
        rw [if_neg hsize, hstage]
        exact ⟨_, rfl, ⟨⟨rfl, rfl, rfl⟩, rfl, rfl⟩⟩
      obtain ⟨live', hexec, hquiet⟩ := hexec
      refine .inl ⟨e, live', hexec, hquiet, fun _ _ hready => ?_⟩
      have hok := hready.stage
      rw [hstage] at hok
      cases hok
    · obtain ⟨live', hafter, hexec⟩ := exec_commitBatch_of_ready ⟨hsize, hstage⟩
      refine .inr ⟨prepared, update, live', ⟨hsize, hstage⟩, hafter, ?_⟩
      rw [hexec]
      cases (live.committing update).1 with
      | error e => exact .inl ⟨e, rfl, rfl⟩
      | ok _ => exact .inr ⟨rfl, rfl⟩

/-- A batch that succeeds was ready, and so was its commit successful. -/
theorem ready_of_commitBatch {live live' : Live β σ} {changes : List Change}
    {result : BatchResult} {deliveries : List Delivery}
    (h : (commitBatch changes).exec live = (.ok (result, deliveries), live')) :
    ∃ prepared update, live.Ready changes prepared update ∧ After live update live' ∧
      (live.committing update).1 = .ok () ∧ result = prepared.result := by
  rcases commitBatch_cases live changes with
    ⟨e, _, hexec, -⟩ | ⟨prepared, update, _, hready, hafter, ⟨e, -, hexec⟩ | ⟨hok, hexec⟩⟩ <;>
    rw [hexec] at h <;> cases h
  exact ⟨prepared, update, hready, hafter, hok, rfl⟩

/-! ### Deliveries behind it -/

omit [Backend β] in
/-- Deliveries change nothing but the receiver, and only it can make them fail. -/
theorem exec_deliverAll (sink : Sink σ) (ds : List Delivery) (live : Live β σ) :
    ∃ answer state, (deliverAll sink ds).exec live = (answer, { live with sink := state }) ∧
      ∀ e, answer = .error e → sink.Refuses e := by
  induction ds generalizing live with
  | nil => exact ⟨.ok (), live.sink, rfl, fun _ he => (by cases he)⟩
  | cons d ds ih =>
      rw [deliverAll, exec_bind, exec_within]
      rcases hd : (sink.deliver d).exec live.sink with ⟨e | _, state⟩
      · refine ⟨.error e, state, rfl, fun e' he => ?_⟩
        cases he
        exact ⟨d, live.sink, congrArg Prod.fst hd⟩
      · exact ih { live with sink := state }

theorem exec_runBatch (sink : Sink σ) (changes : List Change) (live : Live β σ) :
    ∃ state, ((runBatch sink changes).exec live).2 =
      { ((commitBatch changes).exec live).2 with sink := state } := by
  rw [runBatch, exec_bind]
  rcases (commitBatch changes).exec live with ⟨e | ⟨result, ds⟩, live'⟩
  · exact ⟨live'.sink, rfl⟩
  · obtain ⟨answer, state, hdeliver, -⟩ := exec_deliverAll sink ds live'
    refine ⟨state, ?_⟩
    dsimp only
    rw [exec_bind, hdeliver]
    cases answer <;> rfl

/-! ### On the contents -/

/-- An index at work on trees that hold these contents. -/
structure At (c : Contents) (live : Live β σ) : Prop where
  holds : c.Holds live.index.name live.committed
  lockstep : c.Lockstep
  counter : c.last.toNat ≤ live.index.lastEtag.toNat
  definition : live.index.definition.toValue.encode = .ok c.definition

section

variable {c : Contents} {live live' : Live β σ}

omit [Backend β] in
/-- Only the trees and the last etag matter. -/
theorem At.congr (h : At c live)
    (hdefinition : live'.index.definition = live.index.definition)
    (hcommitted : live'.committed = live.committed)
    (hcounter : c.last.toNat ≤ live'.index.lastEtag.toNat) : At c live' where
  holds := by
    rw [hcommitted, Index.name, hdefinition]
    exact h.holds
  lockstep := h.lockstep
  counter := hcounter
  definition := hdefinition ▸ h.definition

/-- The update that a batch starts with. -/
def start (live : Live β σ) : Update :=
  .on live.index.name live.env.begin live.index.lastEtag

omit [Backend β] in
theorem At.shows_start (h : At c live) : Shows c live.start where
  holds := h.holds
  opened _ ho := (by cases ho)
  counter := h.counter

omit [Backend β] in
theorem faithful_stage (live : Live β σ) (changes : List Change) :
    Transaction.Faithful live.committed (live.stage changes).2.txn :=
  (Index.preserves_prepare (Transaction.kept_faithful live.committed) live.index changes live.start
    ⟨rfl, Transaction.faithful_on _⟩).2

/-- What is committed is published. -/
theorem committed_of_ready {live live' : Live β σ} {changes : List Change} {prepared : Prepared}
    {update : Update} (hready : live.Ready changes prepared update)
    (hafter : After live update live') (hok : (live.committing update).1 = .ok ()) :
    live'.committed = update.snapshot := by
  have hfaithful := faithful_stage live changes
  rw [hready.stage] at hfaithful
  rw [Live.committed, hafter.env]
  exact (Environment.committed_of_commit hfaithful live.index.config.syncOnCommit).1 hok

/-- A batch that was committed, and what it made of the contents. -/
structure Committed (live : Live β σ) (changes : List Change) (c c' : Contents) (update : Update)
    (prepared : Prepared) (live' : Live β σ) : Prop extends After live update live' where
  answer : (live.committing update).1 = .ok ()
  stage : live.stage changes = (.ok prepared, update)
  applied : ∃ result, Index.AppliedAll live.index changes c c' result ∧
    prepared.result = { result with reduced := prepared.outputs.length }
  moves : Moves c live.start c' update
  outputs : live.index.outputsOf update = .ok prepared.outputs
  committed : live'.committed = update.snapshot
  holds : At c' live'

/-- **A batch on the contents.** -/
theorem commitBatch_at (h : At c live) (changes : List Change) :
    (∃ e live', (commitBatch changes).exec live = (.error e, live') ∧ Same live live' ∧
      live'.committed = live.committed ∧ At c live') ∨
    ∃ c' update prepared live', Committed live changes c c' update prepared live' ∧
      (commitBatch changes).exec live =
        (.ok (prepared.result, Index.deliveries update.retracted prepared.outputs), live') := by
  rcases commitBatch_cases live changes with
    ⟨e, live', hexec, hquiet, -⟩ | ⟨prepared, update, live', ⟨-, hstage⟩, hafter, hend⟩
  · have hcommitted : live'.committed = live.committed :=
      congrArg Environment.committed hquiet.env
    exact .inl ⟨e, live', hexec, hquiet.toSame, hcommitted,
      h.congr hquiet.definition hcommitted (hquiet.lastEtag ▸ h.counter)⟩
  · obtain ⟨c', result, happlied, hmoves, hresult, houtputs⟩ :=
      Index.exec_prepare h.shows_start h.lockstep rfl hstage
    have hfaithful := faithful_stage live changes
    rw [hstage] at hfaithful
    obtain ⟨hok, herror⟩ :=
      Environment.committed_of_commit hfaithful live.index.config.syncOnCommit
    rcases hend with ⟨e, hanswer, hexec⟩ | ⟨hanswer, hexec⟩
    · have hcommitted : live'.committed = live.committed := by
        rw [Live.committed, hafter.env]
        exact herror e hanswer
      refine .inl ⟨_, live', hexec, hafter.toSame, hcommitted,
        h.congr hafter.definition hcommitted ?_⟩
      rw [hafter.lastEtag]
      exact Nat.le_trans happlied.last_le hmoves.shows.counter
    · have hcommitted : live'.committed = update.snapshot := by
        rw [Live.committed, hafter.env]
        exact hok hanswer
      have hindex : live'.index.name = update.index := by
        rw [Index.name, hafter.definition, hmoves.index]
        rfl
      refine .inr ⟨c', update, prepared, live', ⟨hafter, hanswer, hstage,
        ⟨result, happlied, hresult⟩, hmoves, houtputs, hcommitted, ?_⟩, hexec⟩
      exact
        { holds := by rw [hcommitted, hindex]; exact hmoves.shows.holds
          lockstep := hmoves.lockstep
          counter := hafter.lastEtag ▸ hmoves.shows.counter
          definition := by rw [hafter.definition, hmoves.definition]; exact h.definition }

/-- Whatever becomes of it, the index is at some contents again, with the same definition. -/
theorem runBatch_at (h : At c live) (sink : Sink σ) (changes : List Change) :
    let live' := ((runBatch sink changes).exec live).2
    live'.index.definition = live.index.definition ∧ live'.index.config = live.index.config ∧
      ∃ c' : Contents, c'.definition = c.definition ∧ At c' live' := by
  obtain ⟨state, hrun⟩ := exec_runBatch sink changes live
  dsimp only
  rw [hrun]
  rcases commitBatch_at h changes with
    ⟨e, live', hexec, hsame, -, hat⟩ | ⟨c', update, prepared, live', hcommitted, hexec⟩ <;>
    rw [hexec]
  · exact ⟨hsame.definition, hsame.config, c, rfl, hat.holds, hat.lockstep, hat.counter,
      hat.definition⟩
  · have hat := hcommitted.holds
    exact ⟨hcommitted.definition, hcommitted.config, c', hcommitted.moves.definition, hat.holds,
      hat.lockstep, hat.counter, hat.definition⟩

end

end Live

end Rollup
