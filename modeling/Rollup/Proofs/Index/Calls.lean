import Rollup.Proofs.Index.Batch
import Rollup.Proofs.Index.Counter
import Rollup.Proofs.Storage.History

/-!
# Calls — what is done with an index inside a transaction

Documents are mapped and removed one call after the other, whatever the calls answer.  They draw the
etags right behind the counter (`drawn_eq`), and a call that fails may have drawn one.

A batch makes such calls as well, up to the first that fails (`stage_calls`).  If it is committed,
none has failed, so its etags are consecutive, in the order of its changes (`etags_of_commitBatch`).
-/

namespace Rollup

open Rollup.Action Update

namespace Index

/-! ### Calls -/

/-- A call of an index inside a transaction. -/
inductive Call where
  | map (document : Document)
  | remove (key : DocumentKey)

/-- The call as a step, with the etags that it answers. -/
def perform (ix : Index) : Call → Update.Step (List Etag)
  | .map document => (fun etag => [etag]) <$> ix.mapDocument document
  | .remove key => (fun _ => []) <$> ix.removeDocument key

/-- The update after a call, whatever the call answered. -/
def call (ix : Index) (u : Update) (c : Call) : Update := ((ix.perform c).exec u).2

def calls (ix : Index) (u : Update) (list : List Call) : Update := list.foldl ix.call u

/-- The calls up to the first that fails, with it. -/
def untilFailure (ix : Index) : Update → List Call → List Call
  | _, [] => []
  | u, c :: list =>
    match (ix.perform c).exec u with
    | (.ok _, u') => c :: ix.untilFailure u' list
    | (.error _, _) => [c]

/-- None of the calls fails. -/
def Succeed (ix : Index) : Update → List Call → Prop
  | _, [] => True
  | u, c :: list =>
    (∃ etags u', (ix.perform c).exec u = (.ok etags, u')) ∧ ix.Succeed (ix.call u c) list

/-- The etags that calls draw, in order; a call that fails may have drawn one. -/
def drawn (ix : Index) : Update → List Call → List Etag
  | _, [] => []
  | u, c :: list =>
    let u' := ix.call u c
    if u'.lastEtag = u.lastEtag then ix.drawn u' list else u'.lastEtag :: ix.drawn u' list

variable (ix : Index) {u : Update}

theorem call_map (u : Update) (document : Document) :
    ix.call u (.map document) = ((ix.mapDocument document).exec u).2 := by
  rw [call, perform, exec_map]

theorem call_remove (u : Update) (key : DocumentKey) :
    ix.call u (.remove key) = ((ix.removeDocument key).exec u).2 := by
  rw [call, perform, exec_map]

theorem calls_append (u : Update) (a b : List Call) :
    ix.calls u (a ++ b) = ix.calls (ix.calls u a) b := List.foldl_append

/-- What every call keeps, a list of calls keeps. -/
theorem calls_induction {P : Update → Prop} {list : List Call}
    (hcall : ∀ c ∈ list, ∀ u, P u → P (ix.call u c)) (h : P u) : P (ix.calls u list) := by
  induction list generalizing u with
  | nil => exact h
  | cons c list ih =>
      exact ih (fun d hd => hcall d (List.mem_cons_of_mem _ hd)) (hcall c List.mem_cons_self u h)

end Index

/-- What calls of an index do to trees. -/
inductive Operation.OfCall (index : String) : Operation → Prop where
  | bucket (hash : GroupHash) : OfCall index (.createTree ((Site.bucket hash).tree index))
  | groupKey (key value : Bytes) : OfCall index (.put (Site.groupKeys.tree index) key value)
  | enter {site : Site} {etag : Etag} {key value : Bytes} (h : site.Tells etag key value) :
      OfCall index (.put (site.tree index) key value)
  | delete {site : Site} (h : site ≠ .settings) (key : Bytes) :
      OfCall index (.delete (site.tree index) key)

namespace Index

variable (ix : Index) {u : Update}

/-- **What these operations keep**, calls keep, whatever they answer. -/
theorem works_calls {P : Transaction → Prop} (hP : Transaction.Kept (Operation.OfCall ix.name) P)
    (h : Works ix.name P u) (list : List Call) : Works ix.name P (ix.calls u list) := by
  have hopen : ∀ hash, Operation.OfCall ix.name (.createTree (bucketTree ix.name hash)) :=
    fun hash => Site.tree_bucket ix.name hash ▸ .bucket hash
  refine ix.calls_induction (fun c _ u hu => ?_) h
  cases c with
  | remove key =>
      rw [call_remove]
      exact preserves_removeDocument hP ix hopen (fun _ h k => .delete h k) key u hu
  | map document =>
      rw [call_map]
      refine preserves_mapDocument hP ix hopen (fun k v => .groupKey k v) ?_ document u hu
      rintro _ etag ⟨site, key, value, rfl, htells⟩
      exact .enter htells

theorem succeed_append (u : Update) (a b : List Call) :
    ix.Succeed u (a ++ b) ↔ ix.Succeed u a ∧ ix.Succeed (ix.calls u a) b := by
  induction a generalizing u with
  | nil => simp [Succeed, calls]
  | cons c a ih => rw [List.cons_append, Succeed, Succeed, ih, and_assoc]; rfl

theorem untilFailure_append {u : Update} {a : List Call} (h : ix.Succeed u a) (b : List Call) :
    ix.untilFailure u (a ++ b) = a ++ ix.untilFailure (ix.calls u a) b := by
  induction a generalizing u with
  | nil => rfl
  | cons c a ih =>
      obtain ⟨⟨etags, u', hexec⟩, h⟩ := h
      have hcall : ix.call u c = u' := congrArg Prod.snd hexec
      rw [List.cons_append, untilFailure, hexec]
      show c :: ix.untilFailure u' (a ++ b) = _
      rw [← hcall, ih h]
      rfl

/-! ### Etags -/

/-- A removal draws nothing. -/
theorem lastEtag_call_remove (u : Update) (key : DocumentKey) :
    (ix.call u (.remove key)).lastEtag = u.lastEtag := by
  rw [call_remove]
  exact (ix.blind_removeDocument key).lastEtag u

/-- A call leaves the counter as it was, or draws the next etag. -/
theorem lastEtag_call (u : Update) (c : Call) :
    (ix.call u c).lastEtag = u.lastEtag ∨
      u.lastEtag.next? = some (ix.call u c).lastEtag := by
  cases c with
  | remove key => exact .inl (ix.lastEtag_call_remove u key)
  | map document =>
      rw [call_map]
      rcases ix.lastEtag_mapDocument document u with ⟨e, h⟩ | ⟨etag, hnext, hlast, -⟩
      · exact .inl (by rw [h])
      · exact .inr (hlast ▸ hnext)

theorem perform_map_eq_ok {document : Document} {etags : List Etag} {u' : Update} :
    (ix.perform (.map document)).exec u = (.ok etags, u') ↔
      ∃ etag, (ix.mapDocument document).exec u = (.ok etag, u') ∧ etags = [etag] := by
  rw [perform, exec_map]
  rcases (ix.mapDocument document).exec u with ⟨e | etag, u''⟩ <;>
    simp [Except.map, eq_comm, and_comm]

theorem perform_remove_eq_ok {key : DocumentKey} {etags : List Etag} {u' : Update} :
    (ix.perform (.remove key)).exec u = (.ok etags, u') ↔
      ∃ n, (ix.removeDocument key).exec u = (.ok n, u') ∧ etags = [] := by
  rw [perform, exec_map]
  rcases (ix.removeDocument key).exec u with ⟨e | n, u''⟩ <;>
    simp [Except.map, eq_comm, and_comm]

/-- A document is mapped under the next etag. -/
theorem lastEtag_of_mapDocument {document : Document} {etag : Etag} {u' : Update}
    (h : (ix.mapDocument document).exec u = (.ok etag, u')) :
    u.lastEtag.next? = some etag ∧ u'.lastEtag = etag := by
  rcases ix.lastEtag_mapDocument document u with ⟨e, he⟩ | ⟨next, hnext, hlast, hanswer⟩
  · rw [he] at h
    cases h
  · rw [h] at hlast hanswer
    obtain rfl := hanswer etag rfl
    exact ⟨hnext, hlast⟩

/-- What a call answers, it has drawn. -/
theorem drawn_of_perform {c : Call} {etags : List Etag} {u' : Update}
    (h : (ix.perform c).exec u = (.ok etags, u')) : ix.drawn u [c] = etags := by
  have hcall : ix.call u c = u' := congrArg Prod.snd h
  rw [drawn, hcall, drawn]
  cases c with
  | remove key =>
      obtain ⟨n, -, rfl⟩ := ix.perform_remove_eq_ok.1 h
      have hlast := ix.lastEtag_call_remove u key
      rw [hcall] at hlast
      rw [if_pos hlast]
  | map document =>
      obtain ⟨etag, hexec, rfl⟩ := ix.perform_map_eq_ok.1 h
      obtain ⟨hnext, hlast⟩ := ix.lastEtag_of_mapDocument hexec
      have hne : u'.lastEtag ≠ u.lastEtag := fun e => by
        have := Etag.toNat_of_next? hnext
        rw [← hlast, e] at this
        omega
      rw [if_neg hne, hlast]

theorem drawn_append (u : Update) (a b : List Call) :
    ix.drawn u (a ++ b) = ix.drawn u a ++ ix.drawn (ix.calls u a) b := by
  induction a generalizing u with
  | nil => rfl
  | cons c a ih =>
      rw [List.cons_append, drawn, drawn]
      rw [ih]
      split
      · rfl
      · rw [List.cons_append]
        rfl

/-- **Calls draw the etags** right behind the counter, one after the other. -/
theorem drawn_eq (u : Update) (list : List Call) :
    (ix.drawn u list).map Etag.toNat =
        List.range' (u.lastEtag.toNat + 1) (ix.drawn u list).length ∧
      (ix.calls u list).lastEtag.toNat = u.lastEtag.toNat + (ix.drawn u list).length := by
  induction list generalizing u with
  | nil => exact ⟨rfl, rfl⟩
  | cons c list ih =>
      obtain ⟨hmap, hlast⟩ := ih (ix.call u c)
      rw [drawn]
      split
      · next heq =>
        rw [heq] at hmap hlast
        exact ⟨hmap, hlast⟩
      · next hne =>
        have hnext := Etag.toNat_of_next? ((ix.lastEtag_call u c).resolve_left hne)
        rw [List.map_cons, List.length_cons, List.range'_succ, hmap, hnext]
        refine ⟨rfl, ?_⟩
        show (ix.calls (ix.call u c) list).lastEtag.toNat = _
        rw [hlast, hnext]
        omega

/-- The counter is at the etag that was drawn last. -/
theorem getLast?_drawn (u : Update) (list : List Call) :
    (ix.drawn u list).getLast?.getD u.lastEtag = (ix.calls u list).lastEtag := by
  induction list generalizing u with
  | nil => rfl
  | cons c list ih =>
      show _ = (ix.calls (ix.call u c) list).lastEtag
      rw [← ih, drawn]
      split
      · next heq => rw [heq]
      · rw [List.getLast?_cons, Option.getD_some]

/-- The etags that calls draw are past the counter. -/
theorem lt_of_mem_drawn {u : Update} {list : List Call} {etag : Etag}
    (h : etag ∈ ix.drawn u list) : u.lastEtag.toNat < etag.toNat := by
  have hmem := List.mem_map_of_mem h (f := Etag.toNat)
  rw [(ix.drawn_eq u list).1, List.mem_range'_1] at hmem
  exact hmem.1

/-- A call that succeeds behind others. -/
theorem drawn_concat {u u' : Update} {list : List Call} {c : Call} {etags : List Etag}
    (h : (ix.perform c).exec (ix.calls u list) = (.ok etags, u')) :
    ix.drawn u (list ++ [c]) = ix.drawn u list ++ etags := by
  rw [drawn_append, ix.drawn_of_perform h]

/-- The call maps a document. -/
def Call.isMap : Call → Bool
  | .map _ => true
  | .remove _ => false

/-- Calls that succeed draw an etag for each document that they map. -/
theorem length_drawn {u : Update} {list : List Call} (h : ix.Succeed u list) :
    (ix.drawn u list).length = list.countP Call.isMap := by
  induction list generalizing u with
  | nil => rfl
  | cons c list ih =>
      obtain ⟨⟨etags, u', hexec⟩, h⟩ := h
      have hone : etags.length = if c.isMap then 1 else 0 := by
        cases c with
        | map document =>
            obtain ⟨_, -, rfl⟩ := ix.perform_map_eq_ok.1 hexec
            rfl
        | remove key =>
            obtain ⟨_, -, rfl⟩ := ix.perform_remove_eq_ok.1 hexec
            rfl
      rw [← List.singleton_append, drawn_append, List.length_append, ix.drawn_of_perform hexec,
        hone, List.singleton_append, List.countP_cons, Nat.add_comm]
      exact congrArg (· + _) (ih h)

end Index

/-! ### The calls of a batch -/

/-- The calls of a change: a put takes the entries of its document back first. -/
def Change.calls : Change → List Index.Call
  | .put document => [.remove document.key, .map document]
  | .delete key => [.remove key]

theorem Change.countP_calls (changes : List Change) :
    (changes.flatMap Change.calls).countP Index.Call.isMap = changes.countP Change.isPut := by
  induction changes with
  | nil => rfl
  | cons change changes ih =>
      rw [List.flatMap_cons, List.countP_append, ih, List.countP_cons, Nat.add_comm]
      cases change <;> rfl

namespace Index

variable (ix : Index)

/-- What a step has come to that makes calls: they all succeeded, and it answers something about
the etags that they drew, or it has stopped at the first that failed. -/
def Made {α : Type} (u : Update) (list : List Call) (P : α → List Etag → Prop) :
    Except IndexError α × Update → Prop
  | (.ok a, u') => u' = ix.calls u list ∧ P a (ix.drawn u list) ∧ ix.Succeed u list
  | (.error _, u') => u' = ix.calls u (ix.untilFailure u list) ∧
      ∀ rest, ix.untilFailure u (list ++ rest) = ix.untilFailure u list

variable {ix} {u : Update} {α β : Type}

theorem made_perform {c : Call} {x : Update.Step α} {f : α → List Etag}
    (h : f <$> x = ix.perform c) : ix.Made u [c] (fun a etags => etags = f a) (x.exec u) := by
  have hexec := congrArg (fun step => Action.exec step u) h
  rw [exec_map] at hexec
  have hcall : (x.exec u).2 = ix.call u c := congrArg Prod.snd hexec
  rcases hx : x.exec u with ⟨e | a, u'⟩ <;> rw [hx] at hexec hcall
  · refine ⟨?_, fun rest => ?_⟩ <;> simp only [List.singleton_append, untilFailure, ← hexec]
    · exact hcall
    · rfl
  · exact ⟨hcall, ix.drawn_of_perform hexec.symm, ⟨_, _, hexec.symm⟩, trivial⟩

theorem Made.bind {a b : List Call} {P : α → List Etag → Prop} {Q : β → List Etag → Prop}
    {x : Update.Step α} {f : α → Update.Step β} (hx : ix.Made u a P (x.exec u))
    (hf : ∀ v etags, P v etags → ix.Made (ix.calls u a) b (fun w more => Q w (etags ++ more))
      ((f v).exec (ix.calls u a))) : ix.Made u (a ++ b) Q ((x >>= f).exec u) := by
  rw [exec_bind]
  rcases hexec : x.exec u with ⟨e | v, u'⟩ <;> rw [hexec] at hx
  · obtain ⟨rfl, hstop⟩ := hx
    refine ⟨by rw [hstop], fun rest => ?_⟩
    rw [List.append_assoc, hstop, hstop]
  · obtain ⟨rfl, hP, hgo⟩ := hx
    have h := hf v _ hP
    dsimp only
    rcases hexec' : (f v).exec (ix.calls u a) with ⟨e | w, u'⟩ <;> rw [hexec'] at h
    · obtain ⟨rfl, hstop⟩ := h
      refine ⟨?_, fun rest => ?_⟩
      · rw [ix.untilFailure_append hgo, calls_append]
      · rw [List.append_assoc, ix.untilFailure_append hgo, ix.untilFailure_append hgo, hstop]
    · obtain ⟨rfl, hQ, hgo'⟩ := h
      exact ⟨(ix.calls_append ..).symm, by rwa [drawn_append],
        (ix.succeed_append u a b).2 ⟨hgo, hgo'⟩⟩

theorem made_pure {P : α → List Etag → Prop} {a : α} (h : P a []) :
    ix.Made u [] P ((pure a : Update.Step α).exec u) := ⟨rfl, h, trivial⟩

theorem Made.adapt {list : List Call} {P : α → List Etag → Prop} {x : Update.Step α}
    (h : ix.Made u list P (x.exec u)) (rename : IndexError → IndexError) :
    ix.Made u list P (Action.exec (ExceptT.adapt rename x) u) := by
  rw [exec_adapt]
  rcases hexec : x.exec u with ⟨_ | _, u'⟩ <;> rw [hexec] at h <;> exact h

/-- **A change** makes its calls. -/
theorem made_applyChange (ix : Index) (u : Update) (change : Change) :
    ix.Made u change.calls (fun result etags => result.etags = etags)
      ((ix.applyChange change).exec u) := by
  cases change with
  | put document =>
      refine Made.bind (a := [.remove document.key]) (made_perform rfl) fun _ _ hnone => ?_
      refine Made.bind (a := [.map document]) (made_perform rfl) fun _ _ hone => ?_
      exact made_pure (by rw [hnone, hone]; rfl)
  | delete key =>
      refine Made.bind (a := [.remove key]) (made_perform rfl) fun _ _ hnone => ?_
      exact made_pure (by rw [hnone]; rfl)

/-- **Changes in order** make their calls, up to the first that fails. -/
theorem made_applyChanges (ix : Index) (u : Update) (changes : List Change) :
    ix.Made u (changes.flatMap Change.calls) (fun result etags => result.etags = etags)
      ((ix.applyChanges changes).exec u) := by
  induction changes generalizing u with
  | nil => exact made_pure rfl
  | cons change changes ih =>
      rw [applyChanges, List.flatMap_cons]
      refine ((made_applyChange ix u change).adapt _).bind fun first etags hfirst => ?_
      rw [← List.append_nil (changes.flatMap _)]
      refine (ih _).bind fun rest more hrest => made_pure ?_
      rw [List.append_nil, ← hfirst, ← hrest]
      rfl

end Index

namespace Live

variable {β σ : Type}

/-- The calls that a batch makes. -/
def callsOf (live : Live β σ) (changes : List Change) : List Index.Call :=
  live.index.untilFailure live.start (changes.flatMap Change.calls)

/-- **A batch makes calls**, whether it gets to its commit or not.  If it does, it made all of them
and none failed, and its etags are those that they drew. -/
theorem stage_calls (live : Live β σ) (changes : List Change) :
    (live.stage changes).2 = live.index.calls live.start (live.callsOf changes) ∧
      ∀ prepared, (live.stage changes).1 = .ok prepared →
        live.callsOf changes = changes.flatMap Change.calls ∧
          live.index.Succeed live.start (live.callsOf changes) ∧
          prepared.result.etags = live.index.drawn live.start (live.callsOf changes) := by
  have hmade := Index.made_applyChanges live.index live.start changes
  have hstage : live.stage changes = (do
      let result ← live.index.applyChanges changes
      let outputs ← live.index.outputs
      return ⟨{ result with reduced := outputs.length }, outputs⟩ :
        Update.Step Prepared).exec live.start := rfl
  rw [hstage, callsOf, exec_bind]
  rcases hexec : (live.index.applyChanges changes).exec live.start with ⟨e | result, u⟩ <;>
    rw [hexec] at hmade
  · exact ⟨hmade.1, fun _ h => (by cases h)⟩
  · obtain ⟨rfl, hetags, hgo⟩ := hmade
    have hall : live.index.untilFailure live.start (changes.flatMap Change.calls) =
        changes.flatMap Change.calls := by
      simpa [Index.untilFailure] using live.index.untilFailure_append hgo []
    rw [hall]
    dsimp only
    rw [exec_bind, Index.exec_outputs]
    cases live.index.outputsOf (live.index.calls live.start (changes.flatMap Change.calls)) with
    | error e => exact ⟨rfl, fun _ h => (by cases h)⟩
    | ok outputs =>
        refine ⟨rfl, fun prepared h => ⟨rfl, hgo, ?_⟩⟩
        cases h
        exact hetags

/-! ### Batches that are committed -/

variable [Backend β] {live live' : Live β σ} {changes : List Change} {result : BatchResult}
  {deliveries : List Delivery}

/-- A batch that is committed made all its calls, and they all succeeded. -/
theorem calls_of_commitBatch
    (h : (commitBatch changes).exec live = (.ok (result, deliveries), live')) :
    ¬ live.index.config.maxBatchSize < changes.length ∧
      live.callsOf changes = changes.flatMap Change.calls ∧
      live.index.Succeed live.start (changes.flatMap Change.calls) ∧
      result.etags = live.index.drawn live.start (changes.flatMap Change.calls) := by
  obtain ⟨prepared, update, hready, -, -, rfl⟩ := ready_of_commitBatch h
  obtain ⟨hall, hsucceed, hetags⟩ := (live.stage_calls changes).2 prepared (by rw [hready.stage])
  rw [hall] at hsucceed hetags
  exact ⟨hready.size, hall, hsucceed, hetags⟩

/-- **The etags of a committed batch** are the ones right behind the counter, as many as it maps
documents. -/
theorem etags_of_commitBatch
    (h : (commitBatch changes).exec live = (.ok (result, deliveries), live')) :
    result.etags.map Etag.toNat =
      List.range' (live.index.lastEtag.toNat + 1) (changes.countP Change.isPut) := by
  obtain ⟨-, -, hsucceed, hetags⟩ := calls_of_commitBatch h
  rw [hetags, (live.index.drawn_eq _ _).1, live.index.length_drawn hsucceed, Change.countP_calls]
  rfl

/-- They go to the documents in order: the etag of each says how many are mapped before it. -/
theorem exec_mapDocument_of_commitBatch {before after : List Change} {document : Document}
    (h : (commitBatch (before ++ .put document :: after)).exec live =
      (.ok (result, deliveries), live')) :
    ∃ etag u, (live.index.mapDocument document).exec (live.index.calls live.start
        (before.flatMap Change.calls ++ [.remove document.key])) = (.ok etag, u) ∧
      etag.toNat = live.index.lastEtag.toNat + before.countP Change.isPut + 1 := by
  have hcalls : (before ++ .put document :: after).flatMap Change.calls =
      before.flatMap Change.calls ++ [.remove document.key] ++
        .map document :: after.flatMap Change.calls := by
    simp [Change.calls]
  obtain ⟨-, -, hsucceed, -⟩ := calls_of_commitBatch h
  rw [hcalls, Index.succeed_append] at hsucceed
  obtain ⟨hbefore, ⟨etags, u, hmap⟩, -⟩ := hsucceed
  obtain ⟨etag, hexec, -⟩ := live.index.perform_map_eq_ok.1 hmap
  -- how many etags are drawn by then
  have hlast := (live.index.drawn_eq live.start
    (before.flatMap Change.calls ++ [.remove document.key])).2
  rw [live.index.length_drawn hbefore, List.countP_append, Change.countP_calls] at hlast
  refine ⟨etag, u, hexec, ?_⟩
  rw [Etag.toNat_of_next? (live.index.lastEtag_of_mapDocument hexec).1, hlast]
  rfl

end Live

end Rollup
