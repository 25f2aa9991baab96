import Rollup.Proofs.Index.Calls
import Rollup.Proofs.Storage.History

/-!
# Driving — transactions by hand, and batches as such

A transaction can be driven by hand: calls are made in any order, whatever they answer, and then it
is committed or dropped (`Live.drive`).  The etags that were drawn stay drawn either way.

A batch does the same to the trees and the log as a transaction that makes its calls and is dropped
if one of them fails (`transacts_runBatch`); only then its etags are given back.  So what every call
keeps, transactions driven by hand and batches keep.
-/

namespace Rollup

open Rollup.Action Update

namespace Live

variable {β σ : Type}

/-- Calls by hand write down what they do. -/
theorem faithful_calls (live : Live β σ) (list : List Index.Call) :
    Transaction.Faithful live.committed (live.index.calls live.start list).txn := by
  have hkept : Transaction.Kept (Operation.OfCall live.index.name) _ :=
    (Transaction.kept_faithful live.committed).mono fun _ _ => trivial
  exact (live.index.works_calls hkept ⟨rfl, Transaction.faithful_on _⟩ list).2

/-- The counter does not go back. -/
theorem lastEtag_le_calls (live : Live β σ) (list : List Index.Call) :
    live.index.lastEtag.toNat ≤ (live.index.calls live.start list).lastEtag.toNat := by
  rw [(live.index.drawn_eq live.start list).2]
  exact Nat.le_add_right ..

variable [Backend β]

/-! ### By hand -/

/-- An index whose transaction was driven by hand: its calls, whatever they answer, and how it
ends. -/
def drive (live : Live β σ) (list : List Index.Call) (ending : Transaction.Ending) : Live β σ :=
  let update := live.index.calls live.start list
  let noted : Live β σ :=
    { live with
      events := live.events ++ update.events.push update.released
      index := { live.index with lastEtag := update.lastEtag } }
  match ending with
  | .commit sync => { noted with toHost := ((Host.commit update.txn sync).exec noted.toHost).2 }
  | .drop => noted

theorem index_drive (live : Live β σ) (list : List Index.Call) (ending : Transaction.Ending) :
    (live.drive list ending).index =
      { live.index with lastEtag := (live.index.calls live.start list).lastEtag } := by
  cases ending <;> rfl

theorem env_drive_commit (live : Live β σ) (list : List Index.Call) (sync : Bool) :
    (live.drive list (.commit sync)).env =
      ((Environment.commit (live.index.calls live.start list).txn sync).exec live.env).2 := by
  let update := live.index.calls live.start list
  obtain ⟨events, hhost⟩ := Environment.exec_hostCommit update.txn sync
    ⟨live.env, live.events ++ update.events.push update.released⟩
  show ((Host.commit update.txn sync).exec ⟨live.env, _⟩).2.env = _
  rw [hhost]

/-! ### Batches -/

/-- The calls of a batch, and how its transaction ends.  A batch that is too large makes none. -/
def attempt (live : Live β σ) (changes : List Change) : List Index.Call × Transaction.Ending :=
  if live.index.config.maxBatchSize < changes.length then ([], .drop)
  else (live.callsOf changes, match (live.stage changes).1 with
    | .ok _ => .commit live.index.config.syncOnCommit
    | .error _ => .drop)

/-- What a transaction makes of an index, apart from events and statistics.  A batch that fails
before its commit gives its etags back. -/
structure Transacts (live : Live β σ) (list : List Index.Call) (ending : Transaction.Ending)
    (live' : Live β σ) : Prop where
  name : live'.index.name = live.index.name
  env : live'.env = (live.drive list ending).env
  lastEtag : live'.index.lastEtag = (live.index.calls live.start list).lastEtag ∨
    ending = .drop ∧ live'.index.lastEtag = live.index.lastEtag

theorem transacts_drive (live : Live β σ) (list : List Index.Call) (ending : Transaction.Ending) :
    Transacts live list ending (live.drive list ending) where
  name := by rw [index_drive]; rfl
  env := rfl
  lastEtag := .inl (by rw [index_drive])

/-- **A batch is a transaction**, whatever becomes of it. -/
theorem transacts_runBatch (sink : Sink σ) (live : Live β σ) (changes : List Change) :
    Transacts live (live.attempt changes).1 (live.attempt changes).2
      ((runBatch sink changes).exec live).2 := by
  obtain ⟨state, hrun⟩ := exec_runBatch sink changes live
  rw [hrun]
  rcases commitBatch_cases live changes with
    ⟨e, live', hexec, hquiet, hnot⟩ | ⟨prepared, update, live', hready, hafter, hend⟩
  · have hdrop : (live.attempt changes).2 = .drop := by
      rw [attempt]
      split
      · rfl
      · next hsize =>
        rcases hstage : live.stage changes with ⟨e | prepared, update⟩
        · rfl
        · exact absurd ⟨hsize, hstage⟩ (hnot prepared update)
    rw [hexec, hdrop]
    exact ⟨congrArg Definition.name hquiet.definition, hquiet.env, .inr ⟨rfl, hquiet.lastEtag⟩⟩
  · have hcalls := (live.stage_calls changes).1
    rw [hready.stage] at hcalls
    obtain rfl : update = live.index.calls live.start (live.callsOf changes) := hcalls
    have hattempt : live.attempt changes =
        (live.callsOf changes, .commit live.index.config.syncOnCommit) := by
      rw [attempt, if_neg hready.size, hready.stage]
    have hexec : ((commitBatch changes).exec live).2 = live' := by
      rcases hend with ⟨e, -, hexec⟩ | ⟨-, hexec⟩ <;> rw [hexec]
    rw [hexec, hattempt]
    refine ⟨congrArg Definition.name hafter.definition, ?_, .inl hafter.lastEtag⟩
    rw [env_drive_commit]
    exact hafter.env

namespace Transacts

variable {live live' : Live β σ} {list : List Index.Call} {ending : Transaction.Ending}

theorem lastEtag_le (h : Transacts live list ending live') :
    live.index.lastEtag.toNat ≤ live'.index.lastEtag.toNat := by
  rcases h.lastEtag with hlast | ⟨-, hlast⟩
  · exact hlast ▸ live.lastEtag_le_calls list
  · exact Nat.le_of_eq (congrArg Etag.toNat hlast.symm)

/-- What the calls have led to is published and the counter is theirs, or nothing is published. -/
theorem committed (h : Transacts live list ending live') :
    live'.committed = (live.index.calls live.start list).snapshot ∧
        live'.index.lastEtag = (live.index.calls live.start list).lastEtag ∨
      live'.committed = live.committed := by
  rw [Live.committed, h.env]
  cases ending with
  | drop => exact .inr rfl
  | commit sync =>
      rw [env_drive_commit]
      exact (Environment.committed_commit (live.faithful_calls list) sync).imp_left
        fun hcommitted => ⟨hcommitted, h.lastEtag.resolve_right fun hno => (by cases hno.1)⟩

end Transacts

end Live

end Rollup
