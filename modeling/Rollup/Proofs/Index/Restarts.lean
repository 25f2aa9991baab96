import Rollup.Proofs.Index.Handles

/-!
# Restarts — closing and opening again makes no difference

Between any two batches of a run the store and the index may be closed, and opened again from the
log.  The index that is found there is a *twin* of the one that was closed: it has the same
definition, configuration and last etag, on the same trees (`Beside.restart`).  Twins answer alike
to every batch, send the same to the receiver and are twins afterwards (`Twin.runBatch`), as long as
no commit fails.  So nothing that can be seen of a run tells where it was restarted
(`restarts_transparent`).
-/

namespace Rollup

open Rollup.Action BackendView

namespace Live

variable {β σ : Type}

/-! ### Twins -/

/-- Two indexes at work on the same trees for the same receiver.  Their stores may be kept in
different places, and their statistics and events differ. -/
structure Twin (a b : Live β σ) : Prop extends Index.SameHandle a.index b.index where
  committed : b.committed = a.committed
  sink : b.sink = a.sink
  lastEtag : b.index.lastEtag = a.index.lastEtag

/-- Nothing that can be asked of an index tells the two apart. -/
structure Indistinguishable (a b : Live β σ) : Prop extends Twin a b where
  bucketCount : Index.bucketCountIn b.index.name b.committed =
    Index.bucketCountIn a.index.name a.committed
  entryCount : b.index.entryCountIn b.committed = a.index.entryCountIn a.committed
  entries : ∀ key, b.index.entriesIn b.committed key = a.index.entriesIn a.committed key
  bucket : ∀ hash, b.index.bucketIn b.committed hash = a.index.bucketIn a.committed hash
  groupKey : ∀ hash, b.index.groupKeyIn b.committed hash = a.index.groupKeyIn a.committed hash
  hashes : b.index.hashesIn b.committed = a.index.hashesIn a.committed

section

variable {a b : Live β σ}

theorem Twin.refl (a : Live β σ) : Twin a a := ⟨⟨rfl, rfl⟩, rfl, rfl, rfl⟩

theorem Twin.symm (h : Twin a b) : Twin b a :=
  ⟨h.toSameHandle.symm, h.committed.symm, h.sink.symm, h.lastEtag.symm⟩

/-- **Twins** cannot be told apart. -/
theorem Twin.indistinguishable (h : Twin a b) : Indistinguishable a b := by
  refine ⟨h, ?_, ?_, fun key => ?_, fun hash => ?_, fun hash => ?_, ?_⟩ <;>
    rw [h.committed, h.exists_eq] <;> rfl

theorem Twin.stage_eq (h : Twin a b) (changes : List Change) :
    b.stage changes = a.stage changes := by
  rw [Live.stage_eq h.toSameHandle h.committed, h.lastEtag]
  rfl

end

/-! ### What a batch comes to -/

/-- Why a batch stops before its commit, if it does. -/
def hindrance? (live : Live β σ) (changes : List Change) : Option IndexError :=
  if live.index.config.maxBatchSize < changes.length then
    some (.refused (.batchTooLarge changes.length live.index.config.maxBatchSize))
  else
    match (live.stage changes).1 with
    | .error e => some e
    | .ok _ => none

section

variable {a b a' b' live : Live β σ} {changes : List Change}

theorem Twin.hindrance?_eq (h : Twin a b) (changes : List Change) :
    b.hindrance? changes = a.hindrance? changes := by
  rw [hindrance?, hindrance?, h.stage_eq, h.config]

theorem Twin.ready (h : Twin a b) {prepared : Prepared} {update : Update}
    (hready : a.Ready changes prepared update) : b.Ready changes prepared update :=
  ⟨h.config ▸ hready.size, (h.stage_eq changes).trans hready.stage⟩

theorem hindrance?_eq_none_iff : live.hindrance? changes = none ↔
    ∃ prepared update, live.Ready changes prepared update := by
  rw [hindrance?]
  by_cases hsize : live.index.config.maxBatchSize < changes.length
  · rw [if_pos hsize]
    exact ⟨fun h => (by cases h), fun ⟨_, _, hready⟩ => absurd hsize hready.size⟩
  · rw [if_neg hsize]
    rcases hstage : live.stage changes with ⟨e | prepared, update⟩
    · refine ⟨fun h => (by cases h), fun ⟨_, _, hready⟩ => ?_⟩
      have hok := hready.stage
      rw [hstage] at hok
      cases hok
    · exact iff_of_true rfl ⟨prepared, update, hsize, hstage⟩

theorem Twin.of_quiet (h : Twin a b) (ha : Quiet a a') (hb : Quiet b b') :
    Twin a' b' where
  definition := by rw [hb.definition, ha.definition, h.definition]
  config := by rw [hb.config, ha.config, h.config]
  committed := by
    rw [Live.committed, Live.committed, hb.env, ha.env]
    exact h.committed
  sink := by rw [hb.sink, ha.sink, h.sink]
  lastEtag := by rw [hb.lastEtag, ha.lastEtag, h.lastEtag]

/-- What is delivered, and what the receiver makes of it, depends on the receiver alone. -/
theorem exec_deliverAll_congr (sink : Sink σ) (ds : List Delivery) (h : b.sink = a.sink) :
    ∃ answer state, (deliverAll sink ds).exec a = (answer, { a with sink := state }) ∧
      (deliverAll sink ds).exec b = (answer, { b with sink := state }) := by
  induction ds generalizing a b with
  | nil => exact ⟨.ok (), a.sink, rfl, by rw [← h]; rfl⟩
  | cons d ds ih =>
      rw [deliverAll, exec_bind, exec_bind, exec_within, exec_within, h]
      rcases (sink.deliver d).exec a.sink with ⟨e | _, state⟩
      · exact ⟨.error e, state, rfl, rfl⟩
      · exact @ih { a with sink := state } { b with sink := state } rfl

variable [Backend β]

/-- A batch that is hindered says why, and changes nothing but events and statistics. -/
theorem exec_commitBatch_of_hindrance {e : IndexError} (h : live.hindrance? changes = some e) :
    ∃ live', (commitBatch changes).exec live = (.error e, live') ∧ Quiet live live' := by
  rw [hindrance?] at h
  rw [commitBatch, exec_bind_ok (exec_get live)]
  dsimp only
  by_cases hsize : live.index.config.maxBatchSize < changes.length
  · rw [if_pos hsize] at h ⊢
    cases h
    exact ⟨live, rfl, ⟨⟨rfl, rfl, rfl⟩, rfl, rfl⟩⟩
  · rw [if_neg hsize] at h ⊢
    rcases hstage : live.stage changes with ⟨e' | prepared, update⟩ <;> rw [hstage] at h <;> cases h
    exact ⟨_, rfl, ⟨⟨rfl, rfl, rfl⟩, rfl, rfl⟩⟩

/-- If the batch gets to its commit, that succeeds. -/
def Unfailing (live : Live β σ) (changes : List Change) : Prop :=
  ∀ prepared update, live.Ready changes prepared update → (live.committing update).1 = .ok ()

/-- **A batch on twins** whose commits do not fail. -/
theorem Twin.runBatch (h : Twin a b) (job : Job σ) (ha : a.Unfailing job.changes)
    (hb : b.Unfailing job.changes) :
    Agrees Twin ((runBatch job.sink job.changes).exec a)
      ((runBatch job.sink job.changes).exec b) := by
  rw [Live.runBatch]
  cases hwhy : a.hindrance? job.changes with
  | some e =>
      obtain ⟨a', hexec, hquiet⟩ := exec_commitBatch_of_hindrance hwhy
      obtain ⟨b', hexec', hquiet'⟩ :=
        exec_commitBatch_of_hindrance ((h.hindrance?_eq job.changes).trans hwhy)
      rw [exec_bind_error hexec, exec_bind_error hexec']
      exact ⟨rfl, h.of_quiet hquiet hquiet'⟩
  | none =>
      obtain ⟨prepared, update, hready⟩ := hindrance?_eq_none_iff.1 hwhy
      obtain ⟨a', hafter, hexec⟩ := exec_commitBatch_of_ready hready
      obtain ⟨b', hafter', hexec'⟩ := exec_commitBatch_of_ready (h.ready hready)
      have hoka := ha prepared update hready
      have hokb := hb prepared update (h.ready hready)
      have htwin : Twin a' b' :=
        { definition := by rw [hafter'.definition, hafter.definition, h.definition]
          config := by rw [hafter'.config, hafter.config, h.config]
          committed := by
            rw [committed_of_ready (h.ready hready) hafter' hokb,
              committed_of_ready hready hafter hoka]
          sink := by rw [hafter'.sink, hafter.sink, h.sink]
          lastEtag := by rw [hafter'.lastEtag, hafter.lastEtag] }
      rw [hoka] at hexec
      rw [hokb] at hexec'
      rw [exec_bind_ok hexec, exec_bind_ok hexec']
      obtain ⟨answer, state, hsend, hsend'⟩ := exec_deliverAll_congr job.sink
        (Index.deliveries update.retracted prepared.outputs) htwin.sink
      dsimp only
      rw [exec_bind, exec_bind, hsend, hsend']
      have hend : Twin { a' with sink := state } { b' with sink := state } :=
        ⟨htwin.toSameHandle, htwin.committed, rfl, htwin.lastEtag⟩
      cases answer <;> exact ⟨rfl, hend⟩

end

/-! ### Runs with restarts -/

/-- What happens next: a batch is run, or the store and the index are closed, and opened again from
a copy of the log. -/
inductive Episode (β σ : Type) where
  | batch (job : Job σ)
  | restart (copy : β → β) (path : Option String)

/-- The batches of a run. -/
def batchesOf (run : List (Episode β σ)) : List (Job σ) :=
  run.filterMap fun
    | .batch job => some job
    | .restart _ _ => none

section

variable [Backend β]

/-- The index after a restart. -/
def restarted (live : Live β σ) (copy : β → β) (path : Option String) :
    Except IndexError (Live β σ) := do
  let env ← (Environment.openLog (copy live.env.log.backend)).outcome.mapError .storage
  let (answer, host) :=
    (Index.load live.index.name live.index.config).exec ⟨{ env with path }, live.events⟩
  return ofHost host (← answer) live.sink

/-- The answers of the batches of a run, and the index behind it.  The run ends where the store or
the index cannot be opened again. -/
def episodes : Live β σ → List (Episode β σ) →
    Except IndexError (List (Except IndexError BatchResult) × Live β σ)
  | live, [] => .ok ([], live)
  | live, .batch job :: run => do
    let (answers, last) ← episodes (live.after job) run
    return (((runBatch job.sink job.changes).exec live).1 :: answers, last)
  | live, .restart copy path :: run => do episodes (← live.restarted copy path) run

/-- No commit of a run of batches fails. -/
def AllUnfailing : Live β σ → List (Job σ) → Prop
  | _, [] => True
  | live, job :: jobs => live.Unfailing job.changes ∧ AllUnfailing (live.after job) jobs

variable [LawfulBackend β]

/-- The log that is found holds what was in the one that was closed, and no call on it fails. -/
def Rereads (copy : β → β) : Prop := ∀ b, Sound b → Sound (copy b) ∧ held (copy b) = held b

theorem rereads_id : Rereads (id : β → β) := fun _ h => ⟨h, rfl⟩

variable {a b live : Live β σ} {changes : List Change} {d : Definition} {c : Contents}

theorem sound_after (h : Sound live.env.log.backend) (job : Job σ) :
    Sound (live.after job).env.log.backend := sound_runBatch h job.sink job.changes

theorem sound_afterAll (h : Sound live.env.log.backend) (jobs : List (Job σ)) :
    Sound (live.afterAll jobs).env.log.backend := by
  induction jobs generalizing live with
  | nil => exact h
  | cons job jobs ih => exact ih (sound_after h job)

/-- When no call fails, it is the record of a commit that decides. -/
theorem Twin.unfailing (h : Twin a b) (hsa : Sound a.env.log.backend)
    (hsb : Sound b.env.log.backend) (ha : a.Unfailing changes) : b.Unfailing changes := by
  intro prepared update hready
  have hok := ha prepared update (h.symm.ready hready)
  exact (Environment.commit_ok_iff hsb).2 ((Environment.commit_ok_iff hsa).1 hok)

/-- A batch whose record can be written. -/
theorem unfailing_of_encode (hs : Sound live.env.log.backend) {form : Bytes}
    (h : Record.encode (live.stage changes).2.txn.ops.toList = .ok form) :
    live.Unfailing changes := by
  intro prepared update hready
  rw [hready.stage] at h
  exact (Environment.commit_ok_iff hs).2 ⟨form, h⟩

/-- A run beside the same run with restarts. -/
structure Parallel (d : Definition) (c : Contents) (a b : Live β σ) : Prop extends Twin a b where
  definition_eq : a.index.definition = d
  contents : At c a
  fresh : a.Fresh
  sound : Sound a.env.log.backend
  sound_restarted : Sound b.env.log.backend
  replays : Environment.Replays b.env b.committed

/-- **A batch** on both runs. -/
theorem Parallel.batch (h : Parallel d c a b) (job : Job σ) (hok : a.Unfailing job.changes) :
    ((runBatch job.sink job.changes).exec b).1 = ((runBatch job.sink job.changes).exec a).1 ∧
      ∃ c', Parallel d c' (a.after job) (b.after job) := by
  have hokb := h.unfailing h.sound h.sound_restarted hok
  obtain ⟨hanswer, htwin⟩ := h.runBatch job hok hokb
  obtain ⟨hdefinition, -, c', -, hat⟩ := runBatch_at h.contents job.sink job.changes
  have hlogged : Logged b := ⟨LawfulBackend.intact_of_sound h.sound_restarted, h.replays⟩
  have hlogged' := logged_runBatch hlogged (safe_of_sound h.sound_restarted job.changes) job.sink
  exact ⟨hanswer.symm, c', htwin, hdefinition.trans h.definition_eq, hat,
    Round.fresh_after (r := ⟨a, a, job⟩) h.contents h.fresh hok, sound_after h.sound job,
    sound_after h.sound_restarted job, hlogged'.replays⟩

/-- **A restart** finds a twin of what was closed. -/
theorem Parallel.restart (h : Parallel d c a b) (hvalid : d.validate = .ok ()) (hparsed : d.Parsed)
    (hwithin : d.toValue.Within) {copy : β → β} (hcopy : Rereads copy) (path : Option String) :
    ∃ b', b.restarted copy path = .ok b' ∧ Parallel d c a b' := by
  obtain ⟨hsound, hheld⟩ := hcopy _ h.sound_restarted
  have hdefinition : b.index.definition = d := h.definition.trans h.definition_eq
  -- the counter goes on from the stored last etag, and that is where it was
  have hlast : a.index.lastEtag = c.last := (fresh_iff h.contents.holds).1 h.fresh
  have hat : At c b := h.contents.congr h.definition h.committed (h.lastEtag ▸ h.contents.counter)
  obtain ⟨env, events, hopen, hs, hcommitted, hreplays, hload⟩ :=
    hat.exec_load h.replays (hdefinition ▸ hvalid) (hdefinition ▸ hparsed) (hdefinition ▸ hwithin)
      hsound hheld b.index.config path b.events
  have hsame : env.committed = a.committed := hcommitted.trans h.committed
  refine ⟨ofHost ⟨{ env with path }, events⟩ ⟨b.index.definition, b.index.config, c.last, {}⟩
    b.sink, ?_, ⟨⟨⟨h.definition, h.config⟩, hsame, h.sink, hlast.symm⟩,
      h.definition_eq, h.contents, h.fresh, h.sound, hs, hcommitted.symm ▸ hreplays⟩⟩
  have hopen : (Environment.openLog (copy b.env.log.backend)).outcome.mapError
      IndexError.storage = .ok env := by
    rw [hopen]
    rfl
  refine bind_eq_ok_iff.2 ⟨env, hopen, ?_⟩
  rw [hload]
  rfl

/-- **A run with restarts** beside the run without them. -/
theorem Parallel.run (h : Parallel d c a b) (hvalid : d.validate = .ok ()) (hparsed : d.Parsed)
    (hwithin : d.toValue.Within) {run : List (Episode β σ)}
    (hcopies : ∀ copy path, .restart copy path ∈ run → Rereads copy)
    (hok : a.AllUnfailing (batchesOf run)) :
    ∃ last c', b.episodes run = .ok ((a.attempts (batchesOf run)).map (·.answer), last) ∧
      Parallel d c' (a.afterAll (batchesOf run)) last := by
  induction run generalizing a b c with
  | nil => exact ⟨b, c, rfl, h⟩
  | cons episode run ih =>
      have hrest : ∀ copy path, .restart copy path ∈ run → Rereads copy :=
        fun copy path hmem => hcopies copy path (List.mem_cons_of_mem _ hmem)
      cases episode with
      | batch job =>
          obtain ⟨hanswer, c₁, h₁⟩ := h.batch job hok.1
          obtain ⟨last, c', hlast, hend⟩ := ih h₁ hrest hok.2
          refine ⟨last, c', ?_, hend⟩
          rw [episodes, hlast, hanswer]
          rfl
      | restart copy path =>
          obtain ⟨b', hb', h'⟩ :=
            h.restart hvalid hparsed hwithin (hcopies copy path List.mem_cons_self) path
          obtain ⟨last, c', hlast, hend⟩ := ih h' hrest hok
          refine ⟨last, c', ?_, hend⟩
          rw [episodes, hb']
          exact hlast

/-- **Restarts are transparent.**  From the creation of an index on, batches are run, and between
any two of them the store and the index may be closed and opened again from the log.  If no call of
the backend and no commit fails, every such opening succeeds, every batch has the answer that it
has without them, and the index that comes out has the same definition and cannot be told from the
one without them; the receiver, whatever it is, has been sent the same. -/
theorem restarts_transparent {config : Config} {host host' : Host β} {ix : Index}
    (hparsed : d.Parsed) (hwithin : d.toValue.Within) (hvacant : host.env.committed.Vacant d.name)
    (hsound : Sound host.env.log.backend)
    (hreplays : Environment.Replays host.env host.env.committed)
    (hcreate : (Index.create d config).exec host = (.ok ix, host')) (state : σ)
    (run : List (Episode β σ)) (hcopies : ∀ copy path, .restart copy path ∈ run → Rereads copy)
    (hok : (ofHost host' ix state).AllUnfailing (batchesOf run)) :
    let live := ofHost host' ix state
    ∃ last, live.episodes run = .ok ((live.attempts (batchesOf run)).map (·.answer), last) ∧
      last.index.definition = d ∧ Indistinguishable (live.afterAll (batchesOf run)) last := by
  obtain ⟨hvalid, hix, -⟩ := Index.create_eq_ok hcreate
  obtain ⟨stored, -, hat⟩ := Index.at_of_create hvacant hcreate state
  have hlogged := logged_of_create (LawfulBackend.intact_of_sound hsound) hreplays hcreate state
  have hsound' := sound_of_create hsound hcreate state
  have hstart : Parallel d (.initial stored) (ofHost host' ix state) (ofHost host' ix state) :=
    ⟨Twin.refl _, by rw [hix]; rfl, hat, (fresh_iff hat.holds).2 (by rw [hix]; rfl), hsound',
      hsound', hlogged.replays⟩
  obtain ⟨last, c', hlast, hend⟩ := hstart.run hvalid hparsed hwithin hcopies hok
  exact ⟨last, hlast, hend.definition.trans hend.definition_eq, hend.indistinguishable⟩

theorem restarts_transparent_of_put :
    ∃ ix host', (Index.create Index.minimal {}).exec ⟨.fresh (Memory.mk []), #[]⟩ =
        (.ok ix, host') ∧
      ∃ answer last, (ofHost host' ix ()).episodes
          [.restart id none, .batch ⟨Sink.discard, [.put ⟨[1], .null⟩]⟩, .restart id none] =
            .ok ([answer], last) ∧
        Indistinguishable ((ofHost host' ix ()).after ⟨Sink.discard, [.put ⟨[1], .null⟩]⟩)
          last := by
  obtain ⟨host', hcreate⟩ := Index.exec_create_minimal {}
  refine ⟨_, host', hcreate, ?_⟩
  -- the transaction of the batch, as it is run on the trees of the new index
  have hstage : (ofHost host' (⟨Index.minimal, {}, .zero, {}⟩ : Index) ()).stage
      [.put ⟨[1], .null⟩] = (Index.prepare ⟨Index.minimal, {}, .zero, {}⟩ [.put ⟨[1], .null⟩]).exec
        (.on "i" (.on Index.minimalTrees) .zero) := by
    rw [← Index.committed_of_create_minimal hcreate]
    rfl
  have hrecord : (Record.encode ((Index.prepare ⟨Index.minimal, {}, .zero, {}⟩
      [.put ⟨[1], .null⟩]).exec (.on "i" (.on Index.minimalTrees) .zero)).2.txn.ops.toList).isOk =
        true := by decide +kernel
  rw [← hstage] at hrecord
  obtain ⟨form, hform⟩ := exists_of_isOk hrecord
  obtain ⟨last, hlast, -, hsame⟩ := restarts_transparent Index.parsed_minimal
    Index.within_minimal (Snapshot.vacant_empty _) trivial
    (Environment.Unwritten.replays ⟨trivial, rfl, rfl, rfl⟩) hcreate ()
    [.restart id none, .batch ⟨Sink.discard, [.put ⟨[1], .null⟩]⟩, .restart id none]
    (fun copy path hmem => (by simp_all : copy = id) ▸ rereads_id)
    ⟨unfailing_of_encode trivial hform, trivial⟩
  exact ⟨_, last, hlast, hsame⟩

end

end Live

end Rollup
