import Rollup.Proofs.Index.Alike
import Rollup.Proofs.Index.Reopening

/-!
# Carrying out — batches that nothing hinders

A batch that gets to its commit is carried out if the commit succeeds and the receiver refuses
nothing (`exec_runBatch_of_ready`).  When no call of the backend fails either, the trees that
batches in a row begin with decide whether all of them are committed (`Index.carriesOut`,
`exists_runBatches`).
-/

namespace Rollup

open Rollup.Action BackendView

/-- The receiver refuses nothing. -/
def Sink.Willing {σ : Type} (sink : Sink σ) : Prop :=
  ∀ d state, ((sink.deliver d).exec state).1 = .ok ()

theorem Sink.willing_discard : Sink.discard.Willing := fun _ _ => rfl

theorem ResultStore.willing_sink : ResultStore.sink.Willing := fun _ _ => rfl

/-- Batches that are carried out if no call fails: each is small enough, its work succeeds on the
trees that the ones before it leave, and its record can be written. -/
def Index.carriesOut (ix : Index) : Snapshot → Etag → List (List Change) → Bool
  | _, _, [] => true
  | s, last, part :: parts =>
    match (ix.prepare part).exec (.on ix.name (.on s) last) with
    | (.error _, _) => false
    | (.ok _, update) =>
      decide (part.length ≤ ix.config.maxBatchSize) &&
        (Record.encode update.txn.ops.toList).isOk &&
        carriesOut ix update.snapshot update.lastEtag parts

namespace Live

variable {β σ : Type} {sink : Sink σ} {live : Live β σ}

/-- A receiver that refuses nothing is sent everything. -/
theorem exec_deliverAll_of_willing (hwilling : sink.Willing) (ds : List Delivery)
    (live : Live β σ) :
    ∃ state, (deliverAll sink ds).exec live = (.ok (), { live with sink := state }) := by
  induction ds generalizing live with
  | nil => exact ⟨live.sink, rfl⟩
  | cons d ds ih =>
      have hd := hwilling d live.sink
      rw [deliverAll, exec_bind, exec_within]
      rcases hsend : (sink.deliver d).exec live.sink with ⟨e | _, state⟩ <;> rw [hsend] at hd
      · cases hd
      · exact ih { live with sink := state }

variable [Backend β]

/-- A batch that is ready, whose commit succeeds, and whose receiver refuses nothing. -/
theorem exec_runBatch_of_ready (hwilling : sink.Willing) {changes : List Change}
    {prepared : Prepared} {update : Update} (hready : live.Ready changes prepared update)
    (hok : (live.committing update).1 = .ok ()) :
    ∃ live', (runBatch sink changes).exec live = (.ok prepared.result, live') ∧
      Index.SameHandle live.index live'.index ∧ live'.committed = update.snapshot ∧
      live'.index.lastEtag = update.lastEtag := by
  obtain ⟨live', hafter, hexec⟩ := exec_commitBatch_of_ready hready
  rw [hok] at hexec
  obtain ⟨state, hsend⟩ := exec_deliverAll_of_willing hwilling
    (Index.deliveries update.retracted prepared.outputs) live'
  have hcommitted : live'.committed = update.snapshot := committed_of_ready hready hafter hok
  refine ⟨{ live' with sink := state }, ?_, ⟨hafter.definition, hafter.config⟩, hcommitted,
    hafter.lastEtag⟩
  rw [runBatch, exec_bind_ok hexec]
  dsimp only
  rw [exec_bind_ok hsend]
  rfl

/-- Runs batches in order, up to the first that fails. -/
def runBatches (sink : Sink σ) : List (List Change) → Step β σ BatchResult
  | [] => return {}
  | part :: parts => do
    let first ← runBatch sink part
    return first ++ (← runBatches sink parts)

/-- Batches that are carried out on the trees of an index are all committed. -/
theorem exists_runBatches_of_same [LawfulBackend β] (hwilling : sink.Willing) {ix : Index}
    {s : Snapshot} {last : Etag} {parts : List (List Change)}
    (hsound : Sound live.env.log.backend) (hsame : Index.SameHandle ix live.index)
    (hcommitted : live.committed = s) (hlast : live.index.lastEtag = last)
    (h : ix.carriesOut s last parts = true) :
    ∃ result live', (runBatches sink parts).exec live = (.ok result, live') := by
  induction parts generalizing live s last with
  | nil => exact ⟨_, _, rfl⟩
  | cons part parts ih =>
      have hstage := stage_eq hsame hcommitted part
      rw [hlast] at hstage
      rw [Index.carriesOut] at h
      rcases hwork : (ix.prepare part).exec (.on ix.name (.on s) last) with
        ⟨e | prepared, update⟩ <;> rw [hwork] at h hstage
      · cases h
      · dsimp only at h
        rw [Bool.and_eq_true, Bool.and_eq_true, decide_eq_true_eq, ← hsame.config] at h
        obtain ⟨⟨hsize, hrecord⟩, hrest⟩ := h
        have hready : live.Ready part prepared update := ⟨Nat.not_lt.2 hsize, hstage⟩
        obtain ⟨live', hrun, hsame', hcommitted', hlast'⟩ := exec_runBatch_of_ready hwilling hready
          ((Environment.commit_ok_iff hsound).2 (exists_of_isOk hrecord))
        have hsound' := sound_runBatch hsound sink part
        rw [hrun] at hsound'
        obtain ⟨result, live'', hlater⟩ := ih hsound'
          ⟨hsame'.definition.trans hsame.definition, hsame'.config.trans hsame.config⟩
          hcommitted' hlast' hrest
        exact ⟨_, live'', by rw [runBatches, exec_bind_ok hrun, exec_bind_ok hlater]; rfl⟩

/-- Batches that are carried out from here on. -/
def CarriesOut (live : Live β σ) (parts : List (List Change)) : Prop :=
  live.index.carriesOut live.committed live.index.lastEtag parts = true

/-- **When no call fails**, they are all committed. -/
theorem exists_runBatches [LawfulBackend β] (hwilling : sink.Willing)
    (hsound : Sound live.env.log.backend) {parts : List (List Change)}
    (h : live.CarriesOut parts) :
    ∃ result live', (runBatches sink parts).exec live = (.ok result, live') :=
  exists_runBatches_of_same hwilling hsound ⟨rfl, rfl⟩ rfl rfl h

/-- **On a new index** the trees that it is created with decide. -/
theorem exists_runBatches_of_create [LawfulBackend β] (hwilling : sink.Willing) {d : Definition}
    {config : Config} {host host' : Host β} {ix : Index} (hsound : Sound host.env.log.backend)
    (hcreate : (Index.create d config).exec host = (.ok ix, host')) {s : Snapshot}
    (hcommitted : host'.env.committed = s) {parts : List (List Change)}
    (h : ix.carriesOut s .zero parts = true) (state : σ) :
    ∃ result live', (runBatches sink parts).exec (ofHost host' ix state) = (.ok result, live') := by
  obtain ⟨-, rfl, -⟩ := Index.create_eq_ok hcreate
  exact exists_runBatches_of_same hwilling (sound_of_create hsound hcreate state) ⟨rfl, rfl⟩
    hcommitted rfl h

end Live

end Rollup
