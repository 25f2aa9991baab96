import Rollup.Proofs.Index.Rebuild
import Rollup.Proofs.Index.Reopening

/-!
# Failed commits — what comes back of them

A commit that fails behind its record publishes nothing, and its record comes back when the store is
opened again.  What was reopened is what was published, at every point of a run, if and only if no
such commit had anything to change; then every document of an index has at most one map entry
(`reopened_after_failures`).
-/

namespace Rollup

open Rollup.Action BackendView Transaction

namespace Live

variable {β σ : Type} [Backend β] [LawfulBackend β]

/-! ### Batches -/

/-- A batch that fails or not is at most one commit. -/
theorem ends_runBatch {live : Live β σ} (hi : Intact live.env.log.backend) (sink : Sink σ)
    (changes : List Change) :
    ∃ rs es, Environment.Ends live.env ((runBatch sink changes).exec live).2.env rs es := by
  rcases env_runBatch sink live changes with
    ⟨henv, -⟩ | ⟨prepared, update, -, hfaithful, henv⟩ <;> rw [henv]
  · exact ⟨[], [], .refl hi⟩
  · exact ⟨_, _, Environment.commit_ends hi hfaithful _⟩

theorem ends_batches {run : Live β σ × Ledger} (hi : Intact run.1.env.log.backend) (sink : Sink σ)
    (list : List (List Change)) :
    ∃ rs es, Environment.Ends run.1.env (batches sink run list).1.env rs es := by
  induction list generalizing run with
  | nil => exact ⟨[], [], .refl hi⟩
  | cons changes list ih =>
      obtain ⟨rs, es, h⟩ := ends_runBatch hi sink changes
      obtain ⟨rs', es', h'⟩ := @ih (batch sink run changes) h.intact
      exact ⟨rs ++ rs', es ++ es', h.trans h'⟩

/-- **Batches keep the log in step** with what is published, at every point, if and only if each of
them is safe. -/
theorem reopens_batches_iff {run : Live β σ × Ledger} (h : Logged run.1) (sink : Sink σ)
    (list : List (List Change)) :
    (∀ i, Environment.Reopens (batches sink run (list.take i)).1.env
        (batches sink run (list.take i)).1.committed) ↔
      ∀ i changes, list[i]? = some changes →
        (batches sink run (list.take i)).1.Safe changes := by
  have hstep : ∀ (run : Live β σ × Ledger) (changes : List Change), Logged run.1 →
      (Logged (batch sink run changes).1 ↔ run.1.Safe changes) := by
    intro run changes h
    obtain ⟨hintact, hiff⟩ := replays_runBatch_iff h sink changes
    exact ⟨fun h' => hiff.1 h'.replays, fun hsafe => ⟨hintact, hiff.2 hsafe⟩⟩
  refine Iff.trans (forall_congr' fun i => ?_)
    (forall_take_foldl_iff (P := fun run : Live β σ × Ledger => Logged run.1) hstep h list)
  obtain ⟨rs, es, hends⟩ := ends_batches h.intact sink (list.take i)
  obtain ⟨s, -, hs⟩ := h.replays.recorded hends
  rw [hs.reopens_iff]
  exact ⟨fun hreplays => ⟨hends.intact, hreplays⟩, fun hlogged => hlogged.replays⟩

/-- In the trees of a ledger a document has at most one entry. -/
theorem length_entriesIn_le {ix : Index} {ledger : Ledger} {s : Snapshot}
    (h : ledger.Stored ix s) {key : DocumentKey} {entries : List Entry}
    (hentries : ix.entriesIn s key = .ok entries) : entries.length ≤ 1 := by
  by_cases hlen : key.length < Bytes.capacity 4
  · obtain ⟨hnone, hsome⟩ := h.entries key hlen
    cases hdata : ledger.data key with
    | none =>
        rw [hnone hdata] at hentries
        cases hentries
        exact Nat.zero_le 1
    | some data =>
        obtain ⟨etag, hash, blob, -, hkey, hc, -⟩ := h.total key data hdata
        rw [hsome etag data hash blob hkey hc] at hentries
        cases hentries
        exact Nat.le_refl 1
  · obtain ⟨e, he⟩ := @EntryTable.ofDocument_of_long ix.name s key hlen
    have hentries : EntryTable.ofDocument ix.name s key = .ok entries := hentries
    rw [he] at hentries
    cases hentries

end Live

/-! ### What comes back -/

section

variable {β : Type} [Backend β] [LawfulBackend β]

/-- What comes back of a run of transactions. -/
structure Environment.Aftermath (env : Environment β) (scripts : List Script) : Prop where
  /-- What was published is what the commits that succeeded made, in order. -/
  published : (env.playAll scripts).committed = lastOf env.committed (env.effective scripts)
  /-- The log opens to what was recorded, be it published or stranded. -/
  recorded : ∃ s, Operation.applyAll env.committed (allOps (env.recorded scripts)).flatten = .ok s ∧
    Reopens (env.playAll scripts) s
  /-- That is what was published, at every point, just when nothing stranded was a change. -/
  reopens_iff :
    (∀ i, Reopens (env.playAll (scripts.take i)) (env.playAll (scripts.take i)).committed) ↔
    ∀ i script, scripts[i]? = some script → ∀ t,
      (env.playAll (scripts.take i)).fate script = .stranded t →
        t.working = (env.playAll (scripts.take i)).committed

/-- What comes back of a run of batches. -/
structure Live.Aftermath {σ : Type} (ix : Index) (sink : Sink σ) (start : Live β σ × Ledger)
    (list : List (List Change)) : Prop where
  reopens_iff : (∀ i, Environment.Reopens (batches sink start (list.take i)).1.env
      (batches sink start (list.take i)).1.committed) ↔
    ∀ i changes, list[i]? = some changes → (batches sink start (list.take i)).1.Safe changes
  /-- When nothing stranded was a change, each document has at most one entry. -/
  single : (∀ i changes, list[i]? = some changes →
      (batches sink start (list.take i)).1.Safe changes) →
    ∀ s, Environment.Reopens (batches sink start list).1.env s →
      (batches sink start list).2.Stored ix s ∧
        ∀ key entries, ix.entriesIn s key = .ok entries → entries.length ≤ 1

/-- **What comes back after failed commits.**  A commit that failed behind its record comes back
when the log is opened.  What was published comes back at every point of a run if and only if no
such commit had anything to change; then each document of an index has at most one entry. -/
theorem Live.reopened_after_failures {host : Host β} (hintact : Intact host.env.log.backend)
    (hreplays : Environment.Replays host.env host.env.committed) :
    (∀ scripts, host.env.Aftermath scripts) ∧
    ∀ (d : Definition) (config : Config) (host' : Host β) (ix : Index),
      host.env.committed.Vacant d.name → (Index.create d config).exec host = (.ok ix, host') →
      ∀ (σ : Type) (sink : Sink σ) (state : σ) (list : List (List Change)),
        Live.Aftermath ix sink (ofHost host' ix state, .empty) list := by
  refine ⟨fun scripts => ?_, fun d config host' ix hvacant hcreate σ sink state list => ?_⟩
  · have hends := Environment.playAll_ends hintact scripts
    obtain ⟨s, hs, hreplays'⟩ := hreplays.recorded hends
    exact ⟨hends.committed, ⟨s, hs, hreplays'.reopens⟩,
      Environment.reopens_committed_iff hintact hreplays scripts⟩
  · have hiff := @reopens_batches_iff β σ _ _ (ofHost host' ix state, .empty)
      (logged_of_create hintact hreplays hcreate state) sink list
    refine ⟨hiff, fun hsafe s hs => ?_⟩
    have hcommitted := hiff.2 hsafe list.length
    rw [List.take_length] at hcommitted
    obtain ⟨c₀, hstart⟩ := reached_of_create hvacant hcreate state
    obtain ⟨c, hreached⟩ := batches_reached hstart sink list
    have hstored := hreached.stored
    rw [← hs.unique hcommitted] at hstored
    exact ⟨hstored, fun key entries => length_entriesIn_le hstored⟩

end

/-- After a `flush` that fails, a tree comes back that was not published. -/
theorem Live.reopened_after_failures_of_flush :
    let env := Environment.fresh (Faulty.fail (.sound (Memory.mk [])) .flush 1)
    let env' := env.playAll [⟨[.createTree "t"], .commit false⟩]
    env'.committed.hasTree "t" = false ∧
      ∃ reopened, (Environment.openLog (Memory.mk (held env'.log.backend))).outcome = .ok reopened ∧
        reopened.committed.hasTree "t" = true := by
  intro env env'
  obtain ⟨haftermath, -⟩ := @reopened_after_failures (Faulty Memory) _ _ ⟨env, #[]⟩ trivial
    (Environment.Unwritten.replays ⟨trivial, rfl, rfl, rfl⟩)
  have hops : (allOps (env.recorded [⟨[.createTree "t"], .commit false⟩])).flatten =
      [.createTree "t"] := by decide +kernel
  obtain ⟨s, hs, hreopens⟩ := (haftermath [⟨[.createTree "t"], .commit false⟩]).recorded
  rw [hops] at hs
  cases hs
  obtain ⟨reopened, hopen, hcommitted⟩ := hreopens Memory (Memory.mk _) trivial rfl
  exact ⟨by decide +kernel, reopened, hopen, by rw [hcommitted]; rfl⟩

end Rollup
