import Rollup.Index.Batch
import Rollup.Proofs.Index.Update

/-!
# The counter — what reads the last etag, and what moves it

Only mapping a document draws from the counter of an update, and it draws once, before anything is
written (`lastEtag_mapDocument`).  Every other step is *blind* to the counter: it does the same
whatever the last etag is, and leaves it as it was (`Blind`).
-/

namespace Rollup

open Rollup.Action Update

namespace Update

variable {α β : Type}

/-- The update with another last etag. -/
def withLast (u : Update) (etag : Etag) : Update := { u with lastEtag := etag }

/-- A step that neither reads nor moves the last etag. -/
def Blind (step : Step α) : Prop :=
  ∀ u etag, step.exec (u.withLast etag) = ((step.exec u).1, (step.exec u).2.withLast etag)

theorem Blind.lastEtag {step : Step α} (h : Blind step) (u : Update) :
    (step.exec u).2.lastEtag = u.lastEtag := by
  -- run the step with the etag that is there already
  exact congrArg (·.2.lastEtag) (h u u.lastEtag)

/-! ### The constructions -/

theorem blind_pure (a : α) : Blind (pure a) := fun _ _ => rfl

theorem blind_modify {f : Update → Update}
    (hf : ∀ u etag, f (u.withLast etag) = (f u).withLast etag) : Blind (modify f) := by
  intro u etag
  rw [exec_modify, exec_modify, hf]

theorem Blind.bind {x : Step α} {f : α → Step β} (hx : Blind x) (hf : ∀ a, Blind (f a)) :
    Blind (x >>= f) := by
  intro u etag
  rw [exec_bind, exec_bind, hx]
  rcases x.exec u with ⟨_ | a, t⟩
  · rfl
  · exact hf a t etag

/-- Reading the update is fine where the last etag does not matter. -/
theorem blind_get {f : Update → Step α} (hsame : ∀ u etag, f (u.withLast etag) = f u)
    (hf : ∀ u, Blind (f u)) : Blind (get >>= f) := by
  intro u etag
  rw [exec_bind_ok (exec_get _), exec_bind_ok (exec_get _), hsame]
  exact hf u u etag

theorem Blind.ite {p : Prop} [Decidable p] {x y : Step α} (hx : Blind x) (hy : Blind y) :
    Blind (if p then x else y) := by
  split
  · exact hx
  · exact hy

theorem blind_forM {l : List α} {f : α → Step PUnit} (hf : ∀ a, Blind (f a)) :
    Blind (l.forM f) := by
  induction l with
  | nil => exact blind_pure _
  | cons a l ih => exact (hf a).bind fun _ => ih

theorem Blind.adapt {step : Step α} (h : Blind step) (rename : IndexError → IndexError) :
    Blind (ExceptT.adapt rename step) := fun u etag => by
  rw [exec_adapt, exec_adapt, h]

/-! ### The steps of an update -/

theorem blind_inTxn (step : Transaction.Step α) : Blind (inTxn step) := fun _ _ => rfl

theorem blind_view (read : Snapshot → Except IndexError α) : Blind (view read) := fun _ _ => rfl

theorem blind_report (event : Event) : Blind (report event) := fun _ _ => rfl

theorem blind_retract (hash : GroupHash) : Blind (retract hash) := fun _ _ => rfl

theorem blind_touch (hash : GroupHash) : Blind (touch hash) := fun _ _ => rfl

theorem blind_bucket (hash : GroupHash) : Blind (bucket hash) :=
  blind_get (fun _ _ => rfl) fun _ => by
    dsimp only
    split
    · exact blind_pure _
    · exact (blind_inTxn _).bind fun _ => (blind_modify fun _ _ => rfl).bind fun _ => blind_pure _

theorem blind_putMapped (hash : GroupHash) (etag : Etag) (blob : Bytes) :
    Blind (putMapped hash etag blob) :=
  (blind_bucket hash).bind fun _ => (blind_inTxn _).bind fun _ => blind_touch hash

theorem blind_deleteMapped (hash : GroupHash) (etag : Etag) : Blind (deleteMapped hash etag) :=
  (blind_bucket hash).bind fun _ => (blind_inTxn _).bind fun _ =>
    (blind_touch hash).bind fun _ => blind_pure _

theorem blind_bucketIsEmpty (hash : GroupHash) : Blind (bucketIsEmpty hash) :=
  (blind_bucket hash).bind fun _ => blind_get (fun _ _ => rfl) fun _ => blind_pure _

end Update

namespace Index

variable (ix : Index)

/-! ### Removing -/

theorem blind_recordGroupKey (hash : GroupHash) (key : Bytes) :
    Blind (ix.recordGroupKey hash key) :=
  (blind_view _).bind fun _ => .ite (blind_inTxn _) (blind_pure _)

theorem blind_removeEntry (document : DocumentKey) (e : Entry) :
    Blind (ix.removeEntry document e) := by
  have hend : Blind (do
      let _ ← inTxn (EntryTable.delete ix.name e.etag)
      Update.report (.entryRetracted ix.name { e with document })) :=
    (blind_inTxn _).bind fun _ => blind_report _
  exact (blind_deleteMapped _ _).bind fun _ => (blind_retract _).bind fun _ =>
    (blind_bucketIsEmpty _).bind fun _ => .ite ((blind_inTxn _).bind fun _ => hend) hend

/-- **Removing a document** has nothing to do with the counter. -/
theorem blind_removeDocument (key : DocumentKey) : Blind (ix.removeDocument key) :=
  (blind_view _).bind fun _ => (blind_forM fun _ => ix.blind_removeEntry key _).bind fun _ =>
    blind_pure _

theorem blind_outputs : Blind ix.outputs := by
  rw [outputs]
  exact .ite (blind_get (fun _ _ => rfl) fun _ => blind_view _) (blind_pure _)

/-! ### Mapping -/

theorem blind_enterDocument (document : DocumentKey) (hash : GroupHash) (key blob : Bytes)
    (etag : Etag) : Blind (ix.enterDocument document hash key blob etag) :=
  (blind_putMapped _ _ _).bind fun _ => (blind_inTxn _).bind fun _ =>
    (ix.blind_recordGroupKey _ _).bind fun _ => (blind_inTxn _).bind fun _ =>
    (blind_report _).bind fun _ => blind_pure _

/-- It answers that etag. -/
theorem eq_of_enterDocument {document : DocumentKey} {hash : GroupHash} {key blob : Bytes}
    {etag answer : Etag} {u u' : Update}
    (h : (ix.enterDocument document hash key blob etag).exec u = (.ok answer, u')) :
    answer = etag := by
  obtain ⟨_, _, -, h⟩ := exec_bind_eq_ok.1 h
  obtain ⟨_, _, -, h⟩ := exec_bind_eq_ok.1 h
  obtain ⟨_, _, -, h⟩ := exec_bind_eq_ok.1 h
  obtain ⟨_, _, -, h⟩ := exec_bind_eq_ok.1 h
  obtain ⟨_, _, -, h⟩ := exec_bind_eq_ok.1 h
  cases h
  rfl

/-- The counter after mapping a document, which may have failed behind its etag. -/
theorem lastEtag_mapDocument (document : Document) (u : Update) :
    (∃ e, (ix.mapDocument document).exec u = (.error e, u)) ∨
    ∃ etag, u.lastEtag.next? = some etag ∧
      ((ix.mapDocument document).exec u).2.lastEtag = etag ∧
      ∀ answer, ((ix.mapDocument document).exec u).1 = .ok answer → answer = etag := by
  rcases ix.mapDocument_cases document with ⟨e, h⟩ | ⟨_, key, hash, blob, -, -, hnone, hsome⟩
  · exact .inl ⟨e, h u⟩
  · cases hetag : u.lastEtag.next? with
    | none => exact .inl ⟨_, hnone u hetag⟩
    | some etag =>
        have h := ix.blind_enterDocument document.key hash key blob etag
        rw [hsome u etag hetag]
        exact .inr ⟨etag, rfl, h.lastEtag _, fun answer hanswer =>
          ix.eq_of_enterDocument (Prod.ext hanswer rfl)⟩

end Index

/-! ### Batches -/

/-- The change maps a document. -/
def Change.isPut : Change → Bool
  | .put _ => true
  | .delete _ => false

/-- **A batch that maps nothing** has nothing to do with the counter. -/
theorem Index.blind_prepare (ix : Index) {changes : List Change}
    (h : ∀ change ∈ changes, change.isPut = false) : Blind (ix.prepare changes) := by
  have hchanges : Blind (ix.applyChanges changes) := by
    induction changes with
    | nil => exact blind_pure _
    | cons change changes ih =>
        have hchange : Blind (ix.applyChange change) := by
          cases change with
          | put document => exact absurd (h _ List.mem_cons_self) Bool.noConfusion
          | delete key => exact (ix.blind_removeDocument key).bind fun _ => blind_pure _
        exact (hchange.adapt _).bind fun _ =>
          (ih fun c hc => h c (List.mem_cons_of_mem _ hc)).bind fun _ => blind_pure _
  exact hchanges.bind fun _ => ix.blind_outputs.bind fun _ => blind_pure _

end Rollup
