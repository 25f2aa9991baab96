import Rollup.Proofs.Index.Batch

/-!
# Deliveries — what a batch does to a result store

A result store takes every delivery (`exec_deliverAll_store`).  After those of a batch that was
committed, a result is the output of its group, or what it was before, unless it was taken back
(`Index.get?_results`, `Committed.get?_results`).
-/

namespace Rollup

open Rollup.Action

/-! ### Deliveries -/

namespace ResultStore

theorem get?_accept_retract (store : ResultStore) (hash k : GroupHash) :
    (store.accept (.retract hash)).results.get? k =
      if k = hash then none else store.results.get? k := OrderedMap.get?_erase ..

theorem get?_accept_write (store : ResultStore) (hash : GroupHash) (output : Value)
    (k : GroupHash) : (store.accept (.write hash output)).results.get? k =
      if k = hash then some output else store.results.get? k := OrderedMap.get?_insert ..

/-- Results taken back. -/
theorem get?_retracts (store : ResultStore) (hashes : List GroupHash) (k : GroupHash) :
    ((hashes.map .retract).foldl accept store).results.get? k =
      if k ∈ hashes then none else store.results.get? k := by
  induction hashes generalizing store with
  | nil => simp
  | cons hash hashes ih =>
      rw [List.map_cons, List.foldl_cons, ih, get?_accept_retract]
      by_cases h : k = hash
      · simp [h]
      · simp [h]

end ResultStore

namespace Index

open ResultStore

/-- What is delivered for a touched group. -/
def deliveryOf (retracted : OrderedSet GroupHash) : GroupHash × Option Value → Option Delivery
  | (hash, some output) => some (.write hash output)
  | (hash, none) => if retracted.contains hash then none else some (.retract hash)

variable {retracted : OrderedSet GroupHash} {outputs : List (GroupHash × Option Value)}
  {f : GroupHash → Option Value}

/-- One output delivered. -/
theorem exists_accept_delivery {store : ResultStore} {hash : GroupHash} {output : Option Value}
    (hstore : retracted.contains hash = true → output = none → store.results.get? hash = none) :
    ∃ store' : ResultStore,
      (∀ k, store'.results.get? k = if k = hash then output else store.results.get? k) ∧
      (deliveryOf retracted (hash, output)).toList.foldl accept store = store' := by
  refine ⟨_, fun k => ?_, rfl⟩
  cases output with
  | some v => exact get?_accept_write store hash v k
  | none =>
      rw [deliveryOf]
      split
      · next hr =>
        -- it was taken back before the outputs were sent
        show store.results.get? k = _
        split
        · next e => rw [e, hstore hr rfl]
        · rfl
      · exact get?_accept_retract store hash k

/-- Outputs delivered.  A group without one has no result left, be it taken back before or now. -/
theorem get?_outputs (hf : ∀ e ∈ outputs, e.2 = f e.1) {store : ResultStore}
    (hstore : ∀ hash, retracted.contains hash = true → f hash = none →
      store.results.get? hash = none) (k : GroupHash) :
    ((outputs.filterMap (deliveryOf retracted)).foldl accept store).results.get? k =
      if k ∈ outputs.map (·.1) then f k else store.results.get? k := by
  induction outputs generalizing store with
  | nil => simp
  | cons e outputs ih =>
      obtain ⟨he, hrest⟩ := List.forall_mem_cons.1 hf
      obtain ⟨hash, output⟩ := e
      obtain rfl : output = f hash := he
      obtain ⟨store', hget, haccept⟩ := exists_accept_delivery (hstore hash)
      have hstore' : ∀ j, retracted.contains j = true → f j = none →
          store'.results.get? j = none := fun j hj hnone => by
        rw [hget]
        split
        · next e => rw [← e, hnone]
        · exact hstore j hj hnone
      have hfold :
          (((hash, f hash) :: outputs).filterMap (deliveryOf retracted)).foldl accept store =
          (outputs.filterMap (deliveryOf retracted)).foldl accept store' := by
        rw [← haccept, ← List.foldl_append]
        cases h : deliveryOf retracted (hash, f hash) <;> simp [h]
      have hmem : k ∈ ((hash, f hash) :: outputs).map (·.1) ↔
          k = hash ∨ k ∈ outputs.map (·.1) := List.mem_cons
      rw [hfold, ih hrest hstore', hget, if_congr hmem rfl rfl]
      by_cases hk : k = hash
      · simp [hk]
      · simp only [hk, false_or, if_false]

/-- **The deliveries of a batch**, on the results: a touched group has its output, and of the others
those taken back are gone. -/
theorem get?_deliveries (hf : ∀ e ∈ outputs, e.2 = f e.1) (store : ResultStore) (k : GroupHash) :
    ((deliveries retracted outputs).foldl accept store).results.get? k =
      if k ∈ outputs.map (·.1) then f k
      else if retracted.contains k = true then none else store.results.get? k := by
  have hsplit : deliveries retracted outputs =
      retracted.keys.map .retract ++ outputs.filterMap (deliveryOf retracted) := rfl
  have hkeys : ∀ j, j ∈ retracted.keys ↔ retracted.contains j = true := fun j => by
    rw [OrderedMap.mem_keys_iff, OrderedMap.contains_eq_isSome]
  rw [hsplit, List.foldl_append, get?_outputs hf]
  · simp only [get?_retracts, hkeys]
  · intro j hj _
    rw [get?_retracts, if_pos ((hkeys j).2 hj)]

/-- The outputs of a batch that reduces are those of the groups that it touched. -/
theorem outputs_of_outputsOf {ix : Index} {u : Update} (h : ix.outputsOf u = .ok outputs) :
    (∀ e ∈ outputs, ix.reduceIn u.snapshot e.1 = .ok e.2) ∧
      ∀ k, k ∈ outputs.map (·.1) ↔
        ix.config.reduceAfterBatch = true ∧ u.touched.contains k = true := by
  rw [outputsOf] at h
  split at h
  · next hon =>
    have hkeys : ∀ k, k ∈ u.touched.keys ↔ u.touched.contains k = true := fun k => by
      rw [OrderedMap.mem_keys_iff, OrderedMap.contains_eq_isSome]
    -- an output is paired with the group that it was reduced for
    have hmem := fun e => @mem_of_mapM _ _ _ _ _ _ h e
    simp only [return_pair_eq_ok_iff] at hmem
    refine ⟨fun e he => ?_, fun k => ?_⟩
    · obtain ⟨_, -, rfl, houtput⟩ := (hmem e).1 he
      exact houtput
    · rw [← hkeys, List.mem_map, and_iff_right hon]
      constructor
      · rintro ⟨e, he, rfl⟩
        obtain ⟨_, hk, rfl, -⟩ := (hmem e).1 he
        exact hk
      · intro hk
        obtain ⟨e, he⟩ := mapM_isOk_iff.1 ⟨outputs, h⟩ k hk
        have hlink := return_pair_eq_ok_iff.1 he
        exact ⟨e, (hmem e).2 ⟨k, hk, hlink⟩, hlink.1.symm⟩
  · next hoff =>
    cases h
    exact ⟨fun e he => (by cases he), fun k =>
      ⟨fun hk => (by cases hk), fun hk => absurd hk.1 hoff⟩⟩

/-- **The results after a batch**: if it reduces, a touched group has its output; of the others
those taken back are gone, and the rest is what it was. -/
theorem get?_results {ix : Index} {u : Update} (h : ix.outputsOf u = .ok outputs)
    {store store' : ResultStore}
    (hstore : store' = (deliveries u.retracted outputs).foldl accept store) (k : GroupHash) :
    (ix.config.reduceAfterBatch = true ∧ u.touched.contains k = true →
      ix.reduceIn u.snapshot k = .ok (store'.results.get? k)) ∧
    (¬ (ix.config.reduceAfterBatch = true ∧ u.touched.contains k = true) →
      store'.results.get? k =
        if u.retracted.contains k = true then none else store.results.get? k) := by
  obtain ⟨hreduce, hkeys⟩ := outputs_of_outputsOf h
  have hget := @get?_deliveries u.retracted outputs
    (fun hash => ((ix.reduceIn u.snapshot hash).toOption).join)
    (fun e he => by rw [hreduce e he]; rfl) store k
  rw [← hstore] at hget
  refine ⟨fun hk => ?_, fun hk => ?_⟩
  · obtain ⟨e, he, rfl⟩ := List.mem_map.1 ((hkeys k).2 hk)
    rw [if_pos ((hkeys e.1).2 hk), hreduce e he] at hget
    rw [hreduce e he, hget]
    rfl
  · rwa [if_neg (mt (hkeys k).1 hk)] at hget

end Index

namespace Live

variable {β : Type}

/-- A result store refuses nothing. -/
theorem exec_deliverAll_store (ds : List Delivery) (live : Live β ResultStore) :
    (deliverAll ResultStore.sink ds).exec live =
      (.ok (), { live with sink := ds.foldl ResultStore.accept live.sink }) := by
  induction ds generalizing live with
  | nil => rfl
  | cons d ds ih =>
      rw [deliverAll, exec_bind, exec_within]
      exact ih { live with sink := live.sink.accept d }

variable [Backend β]

theorem exec_runBatch_store (changes : List Change) (live : Live β ResultStore) :
    (runBatch ResultStore.sink changes).exec live =
      match (commitBatch changes).exec live with
      | (.error e, live') => (.error e, live')
      | (.ok (result, ds), live') =>
        (.ok result, { live' with sink := ds.foldl ResultStore.accept live'.sink }) := by
  rw [runBatch, exec_bind]
  rcases (commitBatch changes).exec live with ⟨e | ⟨result, ds⟩, live'⟩
  · rfl
  · dsimp only
    rw [exec_bind_ok (exec_deliverAll_store ds live')]
    rfl

/-- A result after a batch that was committed: it is the output of its group, or it is what it was
before, unless it was taken back. -/
theorem Committed.get?_results {changes : List Change} {c c' : Contents} {update : Update}
    {prepared : Prepared} {live live' : Live β ResultStore}
    (h : Committed live changes c c' update prepared live') {store store' : ResultStore}
    (hstore : store' =
      (Index.deliveries update.retracted prepared.outputs).foldl ResultStore.accept store)
    (hash : GroupHash) :
    live.index.reduceIn update.snapshot hash = .ok (store'.results.get? hash) ∨
    store'.results.get? hash =
        (if update.retracted.contains hash = true then none else store.results.get? hash) ∧
      (live.index.config.reduceAfterBatch = true → ¬ update.touched.contains hash = true) := by
  obtain ⟨hreduced, hkept⟩ := Index.get?_results h.outputs hstore hash
  by_cases hk : live.index.config.reduceAfterBatch = true ∧ update.touched.contains hash = true
  · exact .inl (hreduced hk)
  · exact .inr ⟨hkept hk, fun hon htouched => hk ⟨hon, htouched⟩⟩

end Live

end Rollup
