import Rollup.Proofs.Index.Batch

/-!
# Alike — what a batch depends on

What a batch does inside its transaction depends on the definition and the configuration of the
index, its last etag and the committed trees (`Alike.stage_eq`).  Its counters and the events so
far decide nothing: if it does the same inside its transaction, then from indexes that are alike a
batch has the same answer and leaves indexes that are alike (`Alike.runBatch`).
-/

namespace Rollup

open Rollup.Action

namespace Index

variable {ix ix' : Index}

/-- Two handles of one index, configured the same. -/
structure SameHandle (ix ix' : Index) : Prop where
  definition : ix'.definition = ix.definition
  config : ix'.config = ix.config

theorem SameHandle.symm (h : SameHandle ix ix') : SameHandle ix' ix :=
  ⟨h.definition.symm, h.config.symm⟩

theorem SameHandle.name (h : SameHandle ix ix') : ix'.name = ix.name :=
  congrArg Definition.name h.definition

theorem SameHandle.exists_eq (h : SameHandle ix ix') :
    ix' = { ix with lastEtag := ix'.lastEtag, counters := ix'.counters } := by
  obtain ⟨d, c, e, s⟩ := ix
  obtain ⟨d', c', e', s'⟩ := ix'
  obtain ⟨rfl, rfl⟩ := h
  rfl

theorem applyChanges_congr (h : SameHandle ix ix') (changes : List Change) :
    ix'.applyChanges changes = ix.applyChanges changes := by
  induction changes with
  | nil => rfl
  | cons change changes ih =>
      have hname : ix'.nameDocument change = ix.nameDocument change := by
        rw [h.exists_eq]
        rfl
      have hchange : ix'.applyChange change = ix.applyChange change := by
        rw [h.exists_eq]
        cases change <;> rfl
      rw [applyChanges, applyChanges, hname, hchange, ih]

/-- **What a batch is to do** is in the definition and the configuration. -/
theorem prepare_congr (h : SameHandle ix ix') (changes : List Change) :
    ix'.prepare changes = ix.prepare changes := by
  have houtputs : ix'.outputs = ix.outputs := by
    rw [h.exists_eq]
    rfl
  rw [prepare, prepare, applyChanges_congr h, houtputs]

end Index

namespace Live

variable {β σ : Type}

/-- Two indexes at work on the same store for the same receiver.  Their events may differ, their
counters and last etags are related. -/
structure Alike (S : Counters → Counters → Prop) (L : Etag → Etag → Prop) (a b : Live β σ) : Prop
    extends Index.SameHandle a.index b.index where
  env : b.env = a.env
  sink : b.sink = a.sink
  counters : S a.index.counters b.index.counters
  lastEtag : L a.index.lastEtag b.index.lastEtag

/-- A relation of counters that counting batches keeps. -/
structure Counted (S : Counters → Counters → Prop) : Prop where
  failure : ∀ {s t}, S s t → S (Index.countFailure s) (Index.countFailure t)
  batch : ∀ {s t} result, S s t → S (Index.countBatch result s) (Index.countBatch result t)

/-- Two transactions of a batch that differ in the last etag at most. -/
structure Staged (L : Etag → Etag → Prop) (p q : Except IndexError Prepared × Update) : Prop where
  answer : q.1 = p.1
  update : ∃ etag, q.2 = { p.2 with lastEtag := etag } ∧ L p.2.lastEtag etag

variable {S : Counters → Counters → Prop} {L : Etag → Etag → Prop} {a b c : Live β σ}

/-- From the same last etag a batch does the same inside its transaction. -/
theorem Alike.stage_eq (h : Alike S Eq a b) (changes : List Change) :
    b.stage changes = a.stage changes := by
  rw [stage, stage, Index.prepare_congr h.toSameHandle, h.name, h.env, h.lastEtag]

/-- The work of a batch depends on the trees and the last etag alone. -/
theorem stage_eq {ix : Index} {live : Live β σ} {s : Snapshot}
    (hsame : Index.SameHandle ix live.index) (hcommitted : live.committed = s)
    (changes : List Change) : live.stage changes =
      (ix.prepare changes).exec (.on ix.name (.on s) live.index.lastEtag) := by
  rw [stage, Index.prepare_congr hsame, hsame.name, ← hcommitted]
  rfl

theorem staged_of_eq {p q : Except IndexError Prepared × Update} (h : q = p) : Staged Eq p q :=
  ⟨by rw [h], p.2.lastEtag, by rw [h], rfl⟩

/-! ### Steps from indexes that are alike -/

theorem Alike.reportAll (h : Alike S L a b) (events events' : Array Event) :
    Agrees (Alike S L) ((reportAll events).exec a) ((reportAll events').exec b) :=
  agrees_modify ⟨h.toSameHandle, h.env, h.sink, h.counters, h.lastEtag⟩

theorem Alike.report (h : Alike S L a b) (event event' : Event) :
    Agrees (Alike S L) ((report event).exec a) ((report event').exec b) :=
  agrees_modify ⟨h.toSameHandle, h.env, h.sink, h.counters, h.lastEtag⟩

theorem Alike.count (h : Alike S L a b) {f : Counters → Counters}
    (hf : ∀ {s t}, S s t → S (f s) (f t)) :
    Agrees (Alike S L) ((count f).exec a) ((count f).exec b) :=
  agrees_modify ⟨⟨h.definition, h.config⟩, h.env, h.sink, hf h.counters, h.lastEtag⟩

theorem Alike.deliverAll (h : Alike S L a b) (sink : Sink σ) (ds : List Delivery) :
    Agrees (Alike S L) ((deliverAll sink ds).exec a) ((deliverAll sink ds).exec b) := by
  induction ds generalizing a b with
  | nil => exact agrees_pure _ h
  | cons d ds ih =>
      refine Agrees.bind ?_ fun _ _ _ => ih
      rw [exec_within, exec_within, h.sink]
      exact ⟨rfl, h.toSameHandle, h.env, rfl, h.counters, h.lastEtag⟩

variable [Backend β]

theorem Alike.commit (h : Alike S L a b) (txn : Transaction) :
    Agrees (Alike S L) ((commit txn).exec a) ((commit txn).exec b) := by
  obtain ⟨events, ha⟩ := exec_commit txn a
  obtain ⟨events', hb⟩ := exec_commit txn b
  rw [ha, hb, h.env, h.config]
  exact ⟨rfl, h.toSameHandle, rfl, h.sink, h.counters, h.lastEtag⟩

/-- **A batch up to its commit**, from indexes that are alike, if it does the same inside its
transaction. -/
theorem Alike.commitBatch (h : Alike S L a b) (hS : Counted S) {changes : List Change}
    (hstage : Staged L (a.stage changes) (b.stage changes)) :
    Agrees (Alike S L) ((commitBatch changes).exec a) ((commitBatch changes).exec b) := by
  obtain ⟨hanswer, etag, hupdate, hetag⟩ := hstage
  rw [Live.commitBatch, exec_bind_ok (exec_get a), exec_bind_ok (exec_get b)]
  dsimp only
  rw [h.config]
  by_cases hsize : a.index.config.maxBatchSize < changes.length
  · rw [if_pos hsize, if_pos hsize]
    exact agrees_throw _ h
  have hb : b.stage changes =
      ((a.stage changes).1, { (a.stage changes).2 with lastEtag := etag }) :=
    Prod.ext hanswer hupdate
  rw [if_neg hsize, if_neg hsize, hb]
  generalize a.stage changes = p at hetag ⊢
  obtain ⟨answer, update⟩ := p
  refine Agrees.bind (h.reportAll _ _) fun _ a b h => ?_
  cases answer with
  | error e =>
      refine Agrees.bind (h.count hS.failure) fun _ a b h => ?_
      exact Agrees.bind (h.report _ _) fun _ a b h => agrees_throw _ h
  | ok prepared =>
      refine Agrees.bind (agrees_modify
        ⟨⟨h.definition, h.config⟩, h.env, h.sink, h.counters, hetag⟩) fun _ a b h => ?_
      refine Agrees.bind (Agrees.tryCatch (h.commit _) fun e a b h => ?_) fun _ a b h => ?_
      · refine Agrees.bind (h.count hS.failure) fun _ a b h => ?_
        exact Agrees.bind (h.report _ _) fun _ a b h => agrees_throw _ h
      · refine Agrees.bind (h.count (hS.batch _)) fun _ a b h => ?_
        exact Agrees.bind (h.report _ _) fun _ a b h => agrees_pure _ h

/-- **A batch** from indexes that are alike. -/
theorem Alike.runBatch (h : Alike S L a b) (hS : Counted S) (sink : Sink σ) {changes : List Change}
    (hstage : Staged L (a.stage changes) (b.stage changes)) :
    Agrees (Alike S L) ((runBatch sink changes).exec a) ((runBatch sink changes).exec b) :=
  (h.commitBatch hS hstage).bind fun done _ _ h =>
    (h.deliverAll sink done.2).bind fun _ _ _ h => agrees_pure _ h

end Live

end Rollup
