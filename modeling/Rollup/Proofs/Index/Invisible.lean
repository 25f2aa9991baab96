import Rollup.Proofs.Index.Alike

/-!
# Failed batches — they leave no trace but their count

A batch that stops before its commit leaves the index alike in all but the count of failed batches
(`exec_runBatch_of_stops`).  So in a run of batches those that stopped can be left out, and nothing
else is different (`failed_batches_invisible`).
-/

namespace Rollup

open Rollup.Action

namespace Live

variable {β σ : Type}

/-! ### Runs -/

/-- A batch, with the receiver of its results. -/
structure Job (σ : Type) where
  sink : Sink σ
  changes : List Change

/-- What came of a batch. -/
structure Attempt (σ : Type) extends Job σ where
  /-- It stopped before its commit. -/
  stopped : Bool
  answer : Except IndexError BatchResult

/-- Whether a batch stops before its commit: it is too large, or its transaction fails. -/
def stops (live : Live β σ) (changes : List Change) : Bool :=
  decide (live.index.config.maxBatchSize < changes.length) || !(live.stage changes).1.isOk

section

variable [Backend β]

/-- The index after a batch. -/
def after (live : Live β σ) (job : Job σ) : Live β σ :=
  ((runBatch job.sink job.changes).exec live).2

/-- The index after a run of batches. -/
def afterAll (live : Live β σ) (jobs : List (Job σ)) : Live β σ := jobs.foldl after live

/-- What came of the batches of a run, one by one. -/
def attempts : Live β σ → List (Job σ) → List (Attempt σ)
  | _, [] => []
  | live, job :: jobs =>
    ⟨job, live.stops job.changes, ((runBatch job.sink job.changes).exec live).1⟩ ::
      attempts (live.after job) jobs

end

/-! ### One batch -/

theorem stops_iff {live : Live β σ} {changes : List Change} :
    live.stops changes = true ↔ ∀ prepared update, ¬ live.Ready changes prepared update := by
  rw [stops, Bool.or_eq_true, decide_eq_true_eq]
  rcases hstage : live.stage changes with ⟨e | prepared, update⟩
  · exact iff_of_true (.inr rfl) fun _ _ hready => by
      have hok := hready.stage
      rw [hstage] at hok
      cases hok
  · constructor
    · rintro (hsize | hfail) _ _ hready
      · exact hready.size hsize
      · cases hfail
    · exact fun hnot => .inl (not_not.1 fun hsize => hnot _ _ ⟨hsize, hstage⟩)

/-- The counters are the same but for that of failed batches. -/
def SameButFailed (s t : Counters) : Prop := ∃ failed, t = { s with failed }

theorem counted_sameButFailed : Counted SameButFailed where
  failure := fun ⟨n, h⟩ => ⟨n + 1, by rw [h]; rfl⟩
  batch := fun _ ⟨n, h⟩ => ⟨n, by rw [h]; rfl⟩

variable {a b live : Live β σ}

theorem Alike.stops_eq (h : Alike SameButFailed Eq a b) (changes : List Change) :
    b.stops changes = a.stops changes := by
  rw [stops, stops, h.stage_eq, h.config]

variable [Backend β]

/-- **A batch that stops** answers an error and changes nothing but events and a count. -/
theorem exec_runBatch_of_stops {changes : List Change} (h : live.stops changes = true)
    (sink : Sink σ) : ∃ e events counters,
      (runBatch sink changes).exec live =
        (.error e, { live with events, index := { live.index with counters } }) ∧
      SameButFailed live.index.counters counters := by
  have hcommit : ∃ e events counters, (commitBatch changes).exec live =
        (.error e, { live with events, index := { live.index with counters } }) ∧
      SameButFailed live.index.counters counters := by
    rw [commitBatch, exec_bind_ok (exec_get live)]
    dsimp only
    by_cases hsize : live.index.config.maxBatchSize < changes.length
    · rw [if_pos hsize]
      exact ⟨_, live.events, live.index.counters, rfl, _, rfl⟩
    · rcases hstage : live.stage changes with ⟨e | prepared, update⟩
      · rw [if_neg hsize]
        exact ⟨e, _, Index.countFailure live.index.counters, rfl, _, rfl⟩
      · exact absurd ⟨hsize, hstage⟩ (stops_iff.1 h prepared update)
  obtain ⟨e, events, counters, hexec, hcounters⟩ := hcommit
  exact ⟨e, events, counters, exec_bind_error hexec _, hcounters⟩

/-- The error of a batch that does not stop is that of its commit, or of the receiver. -/
theorem error_of_not_stops {job : Job σ} (h : live.stops job.changes = false) {e : IndexError}
    (hanswer : ((runBatch job.sink job.changes).exec live).1 = .error e) :
    ∃ prepared update, live.Ready job.changes prepared update ∧
      ((∃ cause, (live.committing update).1 = .error cause ∧ e = .storage cause) ∨
        (live.committing update).1 = .ok () ∧ ∃ live', After live update live' ∧
          ((deliverAll job.sink (Index.deliveries update.retracted prepared.outputs)).exec
            live').1 = .error e) := by
  rcases commitBatch_cases live job.changes with
    ⟨_, _, -, -, hnot⟩ | ⟨prepared, update, live', hready, hafter, hend⟩
  · rw [stops_iff.2 hnot] at h
    cases h
  · refine ⟨prepared, update, hready, ?_⟩
    rcases hend with ⟨cause, hcause, hexec⟩ | ⟨hok, hexec⟩
    · rw [runBatch, exec_bind_error hexec] at hanswer
      cases hanswer
      exact .inl ⟨cause, hcause, rfl⟩
    · refine .inr ⟨hok, live', hafter, ?_⟩
      rw [runBatch, exec_bind_ok hexec, exec_bind] at hanswer
      rcases hdeliver : (deliverAll job.sink
          (Index.deliveries update.retracted prepared.outputs)).exec live' with ⟨e' | _, last⟩ <;>
        rw [hdeliver] at hanswer <;> cases hanswer
      rfl

/-! ### Leaving out what stopped -/

/-- The run of the batches that did not stop, beside the whole run. -/
theorem Alike.attempts (h : Alike SameButFailed Eq a b) (jobs : List (Job σ)) :
    let kept := (a.attempts jobs).filter fun t => !t.stopped
    b.attempts (kept.map (·.toJob)) = kept ∧
      Alike SameButFailed Eq (a.afterAll jobs) (b.afterAll (kept.map (·.toJob))) := by
  induction jobs generalizing a b with
  | nil => exact ⟨rfl, h⟩
  | cons job jobs ih =>
      dsimp only
      rw [Live.attempts]
      cases hstop : a.stops job.changes with
      | true =>
          -- the other run does not have this batch
          obtain ⟨e, events, counters, hexec, n, hcounters⟩ := exec_runBatch_of_stops hstop job.sink
          obtain ⟨m, hb⟩ := h.counters
          have hafter : Alike SameButFailed Eq (a.after job) b := by
            rw [after, hexec]
            exact ⟨⟨h.definition, h.config⟩, h.env, h.sink, ⟨m, by rw [hb, hcounters]⟩, h.lastEtag⟩
          exact ih hafter
      | false =>
          obtain ⟨hanswer, hafter⟩ := h.runBatch counted_sameButFailed job.sink
            (staged_of_eq (h.stage_eq job.changes))
          obtain ⟨hattempts, hlast⟩ := ih hafter
          refine ⟨?_, hlast⟩
          show Live.attempts b (job :: _) = _ :: _
          rw [Live.attempts, h.stops_eq, hstop, ← hanswer]
          exact congrArg _ hattempts

/-- **A failed batch is invisible.**  Leave out of a run of batches those that stopped before their
commit: the others have the same answers, and the store with its log, the receiver, the last etag
and the counters come out the same, but for that of failed batches.  All that stopped had
answered an error; the errors of the others are those of a commit or of a receiver. -/
theorem failed_batches_invisible (live : Live β σ) (jobs : List (Job σ)) :
    let kept := (live.attempts jobs).filter fun t => !t.stopped
    live.attempts (kept.map (·.toJob)) = kept ∧
    Alike SameButFailed Eq (live.afterAll jobs) (live.afterAll (kept.map (·.toJob))) ∧
    ∀ job : Job σ,
      (live.stops job.changes = true →
        ∃ e, ((runBatch job.sink job.changes).exec live).1 = .error e) ∧
      (live.stops job.changes = false →
        ∀ e, ((runBatch job.sink job.changes).exec live).1 = .error e →
          ∃ prepared update, live.Ready job.changes prepared update ∧
            ((∃ cause, (live.committing update).1 = .error cause ∧ e = .storage cause) ∨
              (live.committing update).1 = .ok () ∧ ∃ live', After live update live' ∧
                ((deliverAll job.sink (Index.deliveries update.retracted prepared.outputs)).exec
                  live').1 = .error e)) := by
  have hself : Alike SameButFailed Eq live live :=
    ⟨⟨rfl, rfl⟩, rfl, rfl, ⟨live.index.counters.failed, rfl⟩, rfl⟩
  obtain ⟨hattempts, hlast⟩ := hself.attempts jobs
  refine ⟨hattempts, hlast, fun job => ⟨fun hstop => ?_, fun hgo e => error_of_not_stops hgo⟩⟩
  obtain ⟨e, _, _, hexec, -⟩ := exec_runBatch_of_stops hstop job.sink
  exact ⟨e, by rw [hexec]⟩

end Live

end Rollup
