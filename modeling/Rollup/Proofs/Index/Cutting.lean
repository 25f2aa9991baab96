import Rollup.Proofs.Index.Alike
import Rollup.Proofs.Index.Calls
import Rollup.Proofs.Index.Carrying
import Rollup.Proofs.Index.Deletions
import Rollup.Proofs.Index.Deliveries
import Rollup.Proofs.Index.Untouched
import Rollup.Proofs.Storage.Blind

/-!
# Cutting — where one batch ends and the next begins

An update that begins where another one stopped shows the same, but it has not opened a bucket yet
and knows nothing of the groups touched earlier (`Update.Continues`).  No step of a change can tell
the two apart (`seamless_applyChanges`).  So changes that are cut into batches are applied as in one
batch, and after each batch the results of the groups touched so far are those of the trees
(`Cut.runBatch`); at the end, nothing shows where the cuts were (`Cut.runBatches`).
-/

namespace Rollup

open Rollup.Action

namespace Update

/-! ### One update goes on where another one stopped -/

/-- The tree of a bucket that one of the updates has opened. -/
def OpenedTree (u v : Update) (tree : String) : Prop :=
  ∃ hash, (u.opened.contains hash = true ∨ v.opened.contains hash = true) ∧
    tree = bucketTree u.index hash

/-- The second update shows the same as the first, and has the same to do; but these groups were
touched before it began. -/
structure Continues (earlier : GroupHash → Prop) (u v : Update) : Prop where
  index : v.index = u.index
  txn : Transaction.Showing (OpenedTree u v) u.txn v.txn
  lastEtag : v.lastEtag = u.lastEtag
  touched : ∀ hash, u.touched.contains hash = true ↔ earlier hash ∨ v.touched.contains hash = true

/-- A step that does the same on both. -/
def Seamless {α : Type} (step : Step α) : Prop :=
  ∀ earlier u v, Continues earlier u v → Agrees (Continues earlier) (step.exec u) (step.exec v)

variable {α β : Type} {earlier : GroupHash → Prop} {u v : Update}

theorem Continues.snapshot (h : Continues earlier u v) : v.snapshot = u.snapshot := h.txn.working

/-- An update that begins on what another one shows. -/
theorem Continues.restart (h : Continues earlier u v) :
    Continues (u.touched.contains · = true) u (.on u.index (.on v.snapshot) v.lastEtag) where
  index := rfl
  txn := ⟨h.snapshot, fun n ⟨hash, hopened, hn⟩ =>
    h.txn.trees n ⟨hash, .inl (hopened.resolve_right Bool.false_ne_true), hn⟩⟩
  lastEtag := h.lastEtag
  touched _ := ⟨.inl, fun ht => ht.resolve_right Bool.false_ne_true⟩

/-! ### Steps that do not notice -/

theorem seamless_pure (a : α) : Seamless (pure a) := fun _ _ _ h => ⟨rfl, h⟩

theorem seamless_lift (answer : Except IndexError α) : Seamless (lift answer) :=
  fun _ _ _ h => ⟨rfl, h⟩

theorem Seamless.bind {x : Step α} {f : α → Step β} (hx : Seamless x) (hf : ∀ a, Seamless (f a)) :
    Seamless (x >>= f) := fun earlier u v h => Agrees.bind (hx earlier u v h) fun a => hf a earlier

theorem Seamless.ite {p : Prop} [Decidable p] {x y : Step α} (hx : Seamless x) (hy : Seamless y) :
    Seamless (if p then x else y) := by
  split
  · exact hx
  · exact hy

theorem seamless_forM {l : List α} {f : α → Step PUnit} (hf : ∀ a, Seamless (f a)) :
    Seamless (l.forM f) := by
  induction l with
  | nil => exact seamless_pure _
  | cons a l ih => exact (hf a).bind fun _ => ih

theorem Seamless.adapt {x : Step α} (hx : Seamless x) (rename : IndexError → IndexError) :
    Seamless (ExceptT.adapt rename x) := fun earlier u v h => by
  obtain ⟨hanswer, hafter⟩ := hx earlier u v h
  rw [exec_adapt, exec_adapt, hanswer]
  exact ⟨rfl, hafter⟩

theorem seamless_snapshot (f : Snapshot → Step α) (hf : ∀ s, Seamless (f s)) :
    Seamless (get >>= fun u => f u.snapshot) := fun earlier u v h => by
  rw [exec_bind_ok (exec_get u), exec_bind_ok (exec_get v), h.snapshot]
  exact hf u.snapshot earlier u v h

theorem seamless_view (read : Snapshot → Except IndexError α) : Seamless (view read) :=
  seamless_snapshot (fun s => lift (read s)) fun _ => seamless_lift _

theorem seamless_report (event : Event) : Seamless (report event) :=
  fun _ _ _ h => ⟨rfl, h.index, h.txn, h.lastEtag, h.touched⟩

theorem seamless_retract (hash : GroupHash) : Seamless (retract hash) :=
  fun _ _ _ h => ⟨rfl, h.index, h.txn, h.lastEtag, h.touched⟩

theorem seamless_touch (hash : GroupHash) : Seamless (touch hash) :=
  fun _ u v h => ⟨rfl, h.index, h.txn, h.lastEtag, fun k => by
    show (u.touched.insert hash ()).contains k = true ↔
      _ ∨ (v.touched.insert hash ()).contains k = true
    rw [OrderedMap.contains_insert, OrderedMap.contains_insert, h.touched]
    exact or_left_comm⟩

theorem seamless_inTxn {step : Transaction.Step α} (hstep : Transaction.Blind step) :
    Seamless (inTxn step) := fun _ u v h => by
  obtain ⟨hanswer, htxn⟩ := hstep _ u.txn v.txn h.txn
  exact ⟨congrArg (Except.mapError IndexError.storage) hanswer, h.index, htxn, h.lastEtag,
    h.touched⟩

theorem seamless_nextEtag : Seamless nextEtag := fun _ u v h => by
  cases hetag : u.lastEtag.next? with
  | none =>
      rw [exec_nextEtag_of_none hetag, exec_nextEtag_of_none (h.lastEtag ▸ hetag)]
      exact ⟨rfl, h⟩
  | some etag =>
      rw [exec_nextEtag_of_some hetag, exec_nextEtag_of_some (h.lastEtag ▸ hetag)]
      exact ⟨rfl, h.index, h.txn, rfl, h.touched⟩

/-- Asking for a bucket: its tree is there afterwards, and nothing else has changed. -/
theorem exec_bucket_of_opened (u : Update) (hash : GroupHash)
    (h : u.opened.contains hash = true → u.snapshot.hasTree (bucketTree u.index hash) = true) :
    ∃ txn opened, (bucket hash).exec u = (.ok ⟨u.index, hash⟩, { u with txn, opened }) ∧
      txn.working = u.snapshot.addTree (bucketTree u.index hash) ∧
      ∀ k, opened.contains k = true ↔ k = hash ∨ u.opened.contains k = true := by
  have hexec := exec_bucket_eq u hash
  by_cases ho : u.opened.contains hash = true
  · rw [if_pos ho] at hexec
    refine ⟨_, _, hexec, ?_, fun k => ⟨.inr, ?_⟩⟩
    · rw [Snapshot.addTree, if_pos (h ho)]
      rfl
    · rintro (rfl | hk)
      · exact ho
      · exact hk
  · rw [if_neg ho] at hexec
    exact ⟨_, _, hexec, Transaction.working_openedAt _ _, OrderedMap.contains_insert _ _ _⟩

theorem seamless_bucket (hash : GroupHash) : Seamless (bucket hash) := fun _ u v h => by
  obtain ⟨txn, opened, hu, hshow, hopened⟩ := exec_bucket_of_opened u hash fun ho =>
    h.txn.trees _ ⟨hash, .inl ho, rfl⟩
  obtain ⟨txn', opened', hv, hshow', hopened'⟩ := exec_bucket_of_opened v hash fun ho => by
    rw [h.snapshot, h.index]
    exact h.txn.trees _ ⟨hash, .inr ho, rfl⟩
  rw [hu, hv]
  have hbucket : (⟨u.index, hash⟩ : Bucket) = ⟨v.index, hash⟩ := by rw [h.index]
  refine ⟨congrArg Except.ok hbucket, h.index, ⟨?_, ?_⟩, h.lastEtag, h.touched⟩
  · show txn'.working = txn.working
    rw [hshow, hshow', h.snapshot, h.index]
  · rintro n ⟨k, hk, rfl⟩
    show txn.working.hasTree (bucketTree u.index k) = true
    have hk' : (opened.contains k = true ∨ opened'.contains k = true) := hk
    rw [hopened, hopened', or_or_or_comm, or_self] at hk'
    rw [hshow, Snapshot.hasTree_addTree, Bool.or_eq_true, decide_eq_true_eq]
    exact hk'.imp (fun e => by rw [e]) fun ho => h.txn.trees _ ⟨k, ho, rfl⟩

theorem seamless_bucketIsEmpty (hash : GroupHash) : Seamless (bucketIsEmpty hash) :=
  (seamless_bucket hash).bind fun b =>
    seamless_snapshot (fun s => pure (b.isEmpty s)) fun _ => seamless_pure _

theorem seamless_putMapped (hash : GroupHash) (etag : Etag) (blob : Bytes) :
    Seamless (putMapped hash etag blob) :=
  (seamless_bucket hash).bind fun _ =>
    (seamless_inTxn (Transaction.blind_put _ _ _)).bind fun _ => seamless_touch hash

theorem seamless_deleteMapped (hash : GroupHash) (etag : Etag) :
    Seamless (deleteMapped hash etag) :=
  (seamless_bucket hash).bind fun _ => (seamless_inTxn (Transaction.blind_delete _ _)).bind
    fun _ => (seamless_touch hash).bind fun _ => seamless_pure _

end Update

namespace Index

open Update

variable (ix : Index)

theorem seamless_removeEntry (document : DocumentKey) (e : Entry) :
    Seamless (ix.removeEntry document e) := by
  have hend : Seamless (do
      let _ ← inTxn (EntryTable.delete ix.name e.etag)
      Update.report (.entryRetracted ix.name { e with document })) :=
    (seamless_inTxn (TableSchema.blind_delete _ _)).bind fun _ => seamless_report _
  exact (seamless_deleteMapped _ _).bind fun _ => (seamless_retract _).bind fun _ =>
    (seamless_bucketIsEmpty _).bind fun _ =>
    .ite ((seamless_inTxn (Transaction.blind_delete _ _)).bind fun _ => hend) hend

theorem seamless_removeDocument (key : DocumentKey) : Seamless (ix.removeDocument key) :=
  (seamless_view _).bind fun _ => (seamless_forM (seamless_removeEntry ix key)).bind
    fun _ => seamless_pure _

theorem seamless_mapDocument (document : Document) : Seamless (ix.mapDocument document) := by
  have hrecord : ∀ hash key, Seamless (ix.recordGroupKey hash key) := fun _ _ =>
    (seamless_view _).bind fun _ =>
      .ite (seamless_inTxn (Transaction.blind_put _ _ _)) (seamless_pure _)
  exact (seamless_lift _).bind fun _ => (seamless_lift _).bind fun _ =>
    seamless_nextEtag.bind fun _ => (seamless_putMapped _ _ _).bind fun _ =>
    (seamless_inTxn (Transaction.blind_put _ _ _)).bind fun _ => (hrecord _ _).bind fun _ =>
    (seamless_inTxn (TableSchema.blind_insert _ _)).bind fun _ => (seamless_report _).bind
    fun _ => seamless_pure _

/-- **Changes do not notice** that they were begun by another update. -/
theorem seamless_applyChanges (changes : List Change) : Seamless (ix.applyChanges changes) := by
  induction changes with
  | nil => exact seamless_pure _
  | cons change changes ih =>
      have hchange : Seamless (ix.applyChange change) := by
        cases change with
        | put document =>
            exact (seamless_removeDocument ix _).bind fun _ =>
              (seamless_mapDocument ix _).bind fun _ => seamless_pure _
        | delete key => exact (seamless_removeDocument ix _).bind fun _ => seamless_pure _
      exact (hchange.adapt _).bind fun _ => ih.bind fun _ => seamless_pure _

end Index

/-! ### What batches did together -/

namespace BatchResult

theorem empty_append (a : BatchResult) : ({} : BatchResult) ++ a = a := by
  show BatchResult.mk (0 + _) (0 + _) (0 + _) (0 + _) _ = a
  rw [Nat.zero_add, Nat.zero_add, Nat.zero_add, Nat.zero_add]
  rfl

theorem append_assoc (a b c : BatchResult) : a ++ b ++ c = a ++ (b ++ c) := by
  show BatchResult.mk (_ + _ + _) (_ + _ + _) (_ + _ + _) (_ + _ + _) (_ ++ _ ++ _) = _
  rw [Nat.add_assoc, Nat.add_assoc, Nat.add_assoc, Nat.add_assoc, List.append_assoc]
  rfl

/-- They did the same, but for how many groups they reduced. -/
def SameButReduced (a b : BatchResult) : Prop := ∃ reduced, b = { a with reduced }

variable {a a' b b' c : BatchResult}

theorem SameButReduced.append (h : SameButReduced a b) (h' : SameButReduced a' b') :
    SameButReduced (a ++ a') (b ++ b') := by
  obtain ⟨n, rfl⟩ := h
  obtain ⟨n', rfl⟩ := h'
  exact ⟨n + n', rfl⟩

theorem SameButReduced.join (h : SameButReduced a b) (h' : SameButReduced a c) :
    SameButReduced b c := by
  obtain ⟨n, rfl⟩ := h
  obtain ⟨n', rfl⟩ := h'
  exact ⟨n', rfl⟩

end BatchResult

/-- Changes behind changes. -/
theorem Index.exec_applyChanges_append {ix : Index} {l m : List Change} {a b : BatchResult}
    {u u₁ u₂ : Update} (h : (ix.applyChanges l).exec u = (.ok a, u₁))
    (h' : (ix.applyChanges m).exec u₁ = (.ok b, u₂)) :
    (ix.applyChanges (l ++ m)).exec u = (.ok (a ++ b), u₂) := by
  induction l generalizing u a with
  | nil =>
      cases h
      rwa [BatchResult.empty_append]
  | cons change l ih =>
      rw [applyChanges, exec_bind_eq_ok] at h
      obtain ⟨first, u', hfirst, h⟩ := h
      rw [exec_bind_eq_ok] at h
      obtain ⟨rest, u'', hrest, h⟩ := h
      cases h
      rw [List.cons_append, applyChanges, exec_bind_ok hfirst, exec_bind_ok (ih hrest),
        BatchResult.append_assoc]
      rfl

namespace Live

variable {β σ : Type}

/-! ### Batches cut off -/

/-- An index behind some batches, beside an update that has applied their changes in one: the next
batch continues the update.  A result is the output of its group, if that was touched, and else what
it was at the beginning. -/
structure Cut (live : Live β ResultStore) (u : Update) (live' : Live β ResultStore) : Prop
    extends Index.SameHandle live.index live'.index where
  continues : Update.Continues (u.touched.contains · = true) u live'.start
  results : live.index.config.reduceAfterBatch = true → ∀ k,
    (u.touched.contains k = true →
      live.index.reduceIn u.snapshot k = .ok (live'.sink.results.get? k)) ∧
    (¬ u.touched.contains k = true → live'.sink.results.get? k = live.sink.results.get? k)

/-- Nothing is cut off yet; events do not matter. -/
theorem Cut.refl (live : Live β ResultStore) (events : Array Event) :
    Cut live live.start { live with events } where
  definition := rfl
  config := rfl
  continues :=
    { index := rfl
      txn := ⟨rfl, fun _ ⟨_, hopened, _⟩ => absurd (hopened.elim id id) Bool.false_ne_true⟩
      lastEtag := rfl
      touched := fun _ => ⟨.inl, fun ht => ht.elim id id⟩ }
  results _ _ := ⟨fun ht => absurd ht Bool.false_ne_true, fun _ => rfl⟩

variable {live live₁ live₂ : Live β ResultStore} {u : Update}

/-- What is committed is what the update shows. -/
theorem Cut.committed (h : Cut live u live₁) : live₁.committed = u.snapshot := h.continues.snapshot

/-- The results behind one more batch, whose work `update` continues the update. -/
theorem Cut.results_next (h : Cut live u live₁) {changes : List Change} {prepared : Prepared}
    {update u' : Update} (hstage : live₁.stage changes = (.ok prepared, update))
    (houtputs : live₁.index.outputsOf update = .ok prepared.outputs)
    (hcontinues : Update.Continues (u.touched.contains · = true) u' update) {store : ResultStore}
    (hstore : store =
      (Index.deliveries update.retracted prepared.outputs).foldl ResultStore.accept live₁.sink)
    (hon : live.index.config.reduceAfterBatch = true) (k : GroupHash) :
    (u'.touched.contains k = true →
      live.index.reduceIn u'.snapshot k = .ok (store.results.get? k)) ∧
    (¬ u'.touched.contains k = true → store.results.get? k = live.sink.results.get? k) := by
  have htouched : u'.touched.contains k = true ↔
      u.touched.contains k = true ∨ update.touched.contains k = true := hcontinues.touched k
  obtain ⟨hreduced, hkept⟩ := Index.get?_results houtputs hstore k
  rw [h.config, Index.reduceIn_of_definition h.definition, hcontinues.snapshot] at hreduced
  by_cases hk : update.touched.contains k = true
  · exact ⟨fun _ => hreduced ⟨hon, hk⟩, fun hnot => absurd (htouched.2 (.inr hk)) hnot⟩
  · -- the batch left the group alone
    have hspared := @sameGroup_of_stage _ _ live₁ changes k
    rw [hstage] at hspared
    obtain ⟨hsame, hretracted⟩ := hspared hk
    have hget := hkept fun hboth => hk hboth.2
    rw [if_neg hretracted] at hget
    obtain ⟨hbefore, hfirst⟩ := h.results hon k
    rw [← hget] at hbefore hfirst
    refine ⟨fun ht => ?_, fun hnot => hfirst fun ht => hnot (htouched.2 (.inl ht))⟩
    have houtput := hbefore ((htouched.1 ht).resolve_right hk)
    rw [← h.committed, ← Index.reduceIn_of_definition h.definition] at houtput
    rw [← hcontinues.snapshot, ← Index.reduceIn_of_definition h.definition]
    exact Index.reduceIn_of_sameGroup hsame houtput

theorem index_of_stage {live : Live β σ} {changes : List Change} {prepared : Prepared}
    {update : Update} (h : live.stage changes = (.ok prepared, update)) :
    update.index = live.index.name := by
  have hindex : (live.stage changes).2.index = live.index.name :=
    (Index.preserves_prepare (Transaction.kept_faithful live.committed) live.index changes
      live.start ⟨rfl, Transaction.faithful_on _⟩).1
  rwa [h] at hindex

variable [Backend β]

/-- **One more batch.** -/
theorem Cut.runBatch (h : Cut live u live₁) {changes : List Change} {result : BatchResult}
    (hrun : (Live.runBatch ResultStore.sink changes).exec live₁ = (.ok result, live₂)) :
    ∃ done u', (live.index.applyChanges changes).exec u = (.ok done, u') ∧
      done.SameButReduced result ∧ Cut live u' live₂ := by
  rw [exec_runBatch_store] at hrun
  rcases commitBatch_cases live₁ changes with
    ⟨e, _, hexec, -⟩ | ⟨prepared, update, live', hready, hafter, ⟨e, -, hexec⟩ | ⟨hok, hexec⟩⟩ <;>
    rw [hexec] at hrun <;> cases hrun
  have hcommitted : live'.committed = update.snapshot := committed_of_ready hready hafter hok
  -- inside the transaction, the update goes on in step with the batch
  have hstage : (live₁.index.prepare changes).exec live₁.start = (.ok prepared, update) :=
    hready.stage
  obtain ⟨done, hchanges, hresult, houtputs⟩ := Index.exec_prepare_eq_ok hstage
  rw [Index.applyChanges_congr h.toSameHandle] at hchanges
  obtain ⟨hanswer, hcontinues⟩ :=
    live.index.seamless_applyChanges changes _ u live₁.start h.continues
  rcases hu : (live.index.applyChanges changes).exec u with ⟨answer, u'⟩
  rw [hu, hchanges] at hanswer hcontinues
  obtain rfl : answer = .ok done := hanswer
  refine ⟨done, u', rfl, ⟨_, hresult⟩, ⟨?_, ?_⟩, ?_, h.results_next hready.stage houtputs hcontinues
    (congrArg (List.foldl ResultStore.accept · _) hafter.sink)⟩
  · exact hafter.definition.trans h.definition
  · exact hafter.config.trans h.config
  · have hstart : (.on u'.index (.on update.snapshot) update.lastEtag) = live'.start := by
      rw [start, hafter.lastEtag, Index.name, hafter.definition, ← Index.name,
        ← index_of_stage hready.stage, hcontinues.index, ← hcommitted]
      rfl
    have hrestart := hcontinues.restart
    rwa [hstart] at hrestart

/-- **Batches in a row** do together what one batch of all their changes does. -/
theorem Cut.runBatches (h : Cut live u live₁) {parts : List (List Change)} {result : BatchResult}
    (hrun : (Live.runBatches ResultStore.sink parts).exec live₁ = (.ok result, live₂)) :
    ∃ done u', (live.index.applyChanges parts.flatten).exec u = (.ok done, u') ∧
      done.SameButReduced result ∧ Cut live u' live₂ := by
  induction parts generalizing u live₁ result with
  | nil =>
      cases hrun
      exact ⟨{}, u, rfl, ⟨0, rfl⟩, h⟩
  | cons part parts ih =>
      rw [Live.runBatches, exec_bind_eq_ok] at hrun
      obtain ⟨first, live', hfirst, hrun⟩ := hrun
      rw [exec_bind_eq_ok] at hrun
      obtain ⟨rest, live'', hrest, hrun⟩ := hrun
      cases hrun
      obtain ⟨done, u', hdone, hsame, hcut⟩ := h.runBatch hfirst
      obtain ⟨done', u'', hdone', hsame', hcut'⟩ := ih hcut hrest
      exact ⟨done ++ done', u'', Index.exec_applyChanges_append hdone hdone', hsame.append hsame',
        hcut'⟩

/-- What a store shows of an index, and what its receiver has: nothing of it is different. -/
structure SameEnd (a b : Live β ResultStore) : Prop where
  committed : b.committed = a.committed
  lastEtag : b.index.lastEtag = a.index.lastEtag
  results : a.index.config.reduceAfterBatch = true → b.sink.results = a.sink.results

omit [Backend β] in
/-- Behind the same changes it does not show how they were cut. -/
theorem Cut.sameEnd (h : Cut live u live₁) (h' : Cut live u live₂) : SameEnd live₁ live₂ where
  committed := by rw [h.committed, h'.committed]
  lastEtag := h'.continues.lastEtag.trans h.continues.lastEtag.symm
  results hon := OrderedMap.ext_get? fun k => by
    rw [h.config] at hon
    obtain ⟨htouched, huntouched⟩ := h.results hon k
    obtain ⟨htouched', huntouched'⟩ := h'.results hon k
    by_cases hk : u.touched.contains k = true
    · have houtput := htouched hk
      rw [htouched' hk] at houtput
      exact Except.ok.inj houtput
    · rw [huntouched hk, huntouched' hk]

/-- **Two ways of cutting** the same changes into batches come to the same. -/
theorem Cut.ends (h : Cut live u live₁) (h' : Cut live u live₂) {parts parts' : List (List Change)}
    (hparts : parts.flatten = parts'.flatten) {result result' : BatchResult}
    {end₁ end₂ : Live β ResultStore}
    (hrun : (Live.runBatches ResultStore.sink parts).exec live₁ = (.ok result, end₁))
    (hrun' : (Live.runBatches ResultStore.sink parts').exec live₂ = (.ok result', end₂)) :
    result.SameButReduced result' ∧ SameEnd end₁ end₂ := by
  obtain ⟨done, u₁, hdone, hsame, hcut⟩ := h.runBatches hrun
  obtain ⟨done', u₂, hdone', hsame', hcut'⟩ := h'.runBatches hrun'
  rw [hparts, hdone'] at hdone
  cases hdone
  exact ⟨hsame.join hsame', hcut.sameEnd hcut'⟩

/-- **The etags** are the ones right behind the counter, one for each document in order. -/
theorem etags_of_runBatches {parts : List (List Change)} {result : BatchResult}
    (hrun : (Live.runBatches ResultStore.sink parts).exec live = (.ok result, live₁)) :
    result.etags.map Etag.toNat =
      List.range' (live.index.lastEtag.toNat + 1) (parts.flatten.countP Change.isPut) := by
  obtain ⟨done, u', hdone, ⟨_, rfl⟩, -⟩ := (Cut.refl live live.events).runBatches hrun
  have hmade := live.index.made_applyChanges live.start parts.flatten
  rw [hdone] at hmade
  obtain ⟨-, hetags, hsucceed⟩ := hmade
  rw [hetags, (live.index.drawn_eq _ _).1, live.index.length_drawn hsucceed, Change.countP_calls]
  rfl

end Live

end Rollup
