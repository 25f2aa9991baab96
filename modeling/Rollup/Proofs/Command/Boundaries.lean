import Rollup.Command.Input
import Rollup.Proofs.Index.Cutting
import Rollup.Proofs.Index.Deletions

/-!
# Batch boundaries — nothing shows where they were

The commands cut their changes into batches: the lines of an input are applied in parts of the size
that was asked for (`exec_applyLines`), and documents are deleted in as few parts as the index
allows (`exec_deleteParts`).  However the changes are cut, as long as every batch is committed they
come to the same (`batch_boundaries_invisible`).
-/

namespace Rollup

open Rollup.Action BackendView

/-! ### Parts of a list -/

section

variable {α : Type} {n : Nat} {l m : List α}

theorem flatten_partsOf (n : Nat) (l : List α) : (partsOf n l).flatten = l := by
  fun_induction partsOf n l with
  | case1 => rfl
  | case2 a rest ih => rw [List.flatten_cons, ih, List.cons_append, List.take_append_drop]

/-- A part that is full, and the rest. -/
theorem partsOf_append (h : l.length = n + 1) (m : List α) :
    partsOf n (l ++ m) = l :: partsOf n m := by
  obtain ⟨a, rest, rfl⟩ := List.exists_cons_of_length_eq_add_one h
  have hrest : rest.length = n := Nat.succ.inj h
  rw [List.cons_append, partsOf, List.take_left' hrest, List.drop_left' hrest]

/-- What fits into one part. -/
theorem partsOf_of_length_le (hne : l ≠ []) (h : l.length ≤ n + 1) : partsOf n l = [l] := by
  obtain ⟨a, rest, rfl⟩ := List.exists_cons_of_ne_nil hne
  have hrest : rest.length ≤ n := Nat.le_of_succ_le_succ h
  rw [partsOf, List.take_of_length_le hrest, List.drop_of_length_le hrest, partsOf]

end

/-- The changes that lines write, of which the first has number `n`. -/
def Change.ofLines : Nat → List Bytes → Except CommandError (List Change)
  | _, [] => .ok []
  | n, line :: lines =>
    match Utf8.decode? line with
    | none => .error .unreadable
    | some text =>
      if Text.isBlank text then ofLines (n + 1) lines
      else do
        let change ← (ofLine text).mapError (.line n)
        return change :: (← ofLines (n + 1) lines)

/-- A line is blank, or it writes the first of the changes. -/
theorem Change.ofLines_cons {n : Nat} {line : Bytes} {lines : List Bytes} {changes : List Change}
    (h : ofLines n (line :: lines) = .ok changes) : ∃ text, Utf8.decode? line = some text ∧
      (Text.isBlank text = true ∧ ofLines (n + 1) lines = .ok changes ∨
        ¬ Text.isBlank text = true ∧ ∃ change rest, ofLine text = .ok change ∧
          ofLines (n + 1) lines = .ok rest ∧ changes = change :: rest) := by
  rw [ofLines] at h
  cases hline : Utf8.decode? line with
  | none =>
      rw [hline] at h
      cases h
  | some text =>
      rw [hline] at h
      dsimp only at h
      refine ⟨text, rfl, ?_⟩
      by_cases hblank : Text.isBlank text = true
      · rw [if_pos hblank] at h
        exact .inl ⟨hblank, h⟩
      · rw [if_neg hblank] at h
        obtain ⟨change, hchange, h⟩ := bind_eq_ok_iff.1 h
        obtain ⟨rest, hrest, h⟩ := bind_eq_ok_iff.1 h
        cases h
        exact .inr ⟨hblank, change, rest, mapError_eq_ok_iff.1 hchange, hrest, rfl⟩

namespace Live

variable {β σ : Type} [Backend β] {sink : Sink σ}

/-! ### Commands as runs of batches -/

section

variable {γ : Type}

/-- Runs batches, and answers something about what they did together. -/
def tally (f : BatchResult → γ) (sink : Sink σ) (parts : List (List Change)) :
    CommandStep β σ γ := ExceptT.adapt .index (f <$> runBatches sink parts)

theorem exec_tally_of_ok {parts : List (List Change)} {result : BatchResult} {live live' : Live β σ}
    (h : (runBatches sink parts).exec live = (.ok result, live')) (f : BatchResult → γ) :
    (tally f sink parts).exec live = (.ok (f result), live') := by
  rw [tally, exec_adapt, exec_map, h]
  rfl

/-- What adds up over two results adds up over a run. -/
theorem exec_tally_cons {f : BatchResult → γ} {add : γ → γ → γ}
    (hf : ∀ a b, f (a ++ b) = add (f a) (f b)) (part : List Change) (parts : List (List Change))
    (live : Live β σ) : (tally f sink (part :: parts)).exec live = (do
      let first ← runChanges sink part
      let later ← tally f sink parts
      return add (f first) later : CommandStep β σ γ).exec live := by
  rw [tally, exec_adapt, exec_map, runBatches, exec_bind, exec_bind, runChanges, exec_adapt]
  rcases (runBatch sink part).exec live with ⟨e | first, live'⟩
  · rfl
  · dsimp only
    show _ = (tally f sink parts >>= fun later => pure (add (f first) later)).exec live'
    rw [exec_bind, exec_bind, tally, exec_adapt, exec_map]
    rcases (runBatches sink parts).exec live' with ⟨e | later, live''⟩
    · rfl
    · exact congrArg (fun a => (Except.ok a, live'')) (hf first later)

end

/-- Deletions in batches. -/
theorem exec_deleteParts (parts : List (List DocumentKey)) (live : Live β σ) :
    (deleteParts sink parts).exec live =
      (tally (fun r => (r.deleted, r.retracted)) sink (parts.map (·.map .delete))).exec live := by
  have hcons := @exec_tally_cons β σ _ sink _ (fun r => (r.deleted, r.retracted))
    (fun a b => (a.1 + b.1, a.2 + b.2)) fun _ _ => rfl
  induction parts generalizing live with
  | nil => rfl
  | cons keys parts ih =>
      rw [List.map_cons, hcons, deleteParts, exec_bind, exec_bind]
      rcases (runChanges sink (keys.map .delete)).exec live with ⟨e | first, live'⟩
      · rfl
      · dsimp only
        rw [exec_bind, exec_bind, ih]

/-- The lines of an input, in batches of a size. -/
theorem exec_applyFrom {limit n : Nat} {waiting : Array Change} {lines : List Bytes}
    {changes : List Change} (hlines : Change.ofLines n lines = .ok changes)
    (hwaiting : waiting.size < limit) (live : Live β σ) :
    (applyFrom sink limit n waiting lines).exec live =
      (tally BatchResult.mapped sink
        (partsOf (limit - 1) (waiting.toList ++ changes))).exec live := by
  have hcons := @exec_tally_cons β σ _ sink _ BatchResult.mapped (· + ·) fun _ _ => rfl
  induction lines generalizing n waiting changes live with
  | nil =>
      cases hlines
      rw [applyFrom, List.append_nil]
      by_cases hempty : waiting.isEmpty = true
      · rw [if_pos hempty, Array.isEmpty_iff.1 hempty, partsOf]
        rfl
      · rw [if_neg hempty, partsOf_of_length_le, hcons, exec_bind, exec_bind]
        · rfl
        · simpa using hempty
        · simp
          omega
  | cons line lines ih =>
      obtain ⟨text, hline, ⟨hblank, hrest⟩ | ⟨hblank, change, rest, hchange, hrest, rfl⟩⟩ :=
        Change.ofLines_cons hlines
      · rw [applyFrom, hline]
        dsimp only
        rw [if_pos hblank]
        exact ih hrest hwaiting live
      · have hread : (readLine n text).exec live = (.ok change, live) := by
          rw [readLine, exec_lift, hchange]
          rfl
        rw [applyFrom, hline]
        dsimp only
        rw [if_neg hblank, exec_bind_ok hread, List.append_cons, ← Array.toList_push]
        by_cases hfull : limit ≤ (waiting.push change).size
        · -- the batch is full, and the rest is behind it
          have hsize : (waiting.push change).toList.length = limit - 1 + 1 := by
            rw [Array.length_toList]
            rw [Array.size_push] at hfull ⊢
            omega
          rw [if_pos hfull, partsOf_append hsize, hcons, exec_bind, exec_bind]
          rcases (runChanges sink (waiting.push change).toList).exec live with ⟨e | first, live'⟩
          · rfl
          · have hlater := @ih (n + 1) #[] rest hrest (Nat.zero_lt_of_lt hwaiting) live'
            dsimp only
            rw [exec_bind, exec_bind, hlater]
            rfl
        · rw [if_neg hfull]
          exact ih hrest (Nat.lt_of_not_le hfull) live

omit [Backend β] in
theorem exec_clampBatch (requested : Nat) (live : Live β σ) :
    ∃ events, (clampBatch requested).exec live =
      (.ok (live.index.batchLimit requested), { live with events }) := by
  rw [clampBatch, exec_bind_ok (exec_get live)]
  dsimp only
  split
  · exact ⟨_, rfl⟩
  · exact ⟨live.events, rfl⟩

theorem exec_applyLines {input : Bytes} {changes : List Change}
    (hlines : Change.ofLines 1 (Text.lines input) = .ok changes) (size : Nat) (live : Live β σ) :
    ∃ events, (applyLines sink input size).exec live =
      (tally BatchResult.mapped sink (partsOf (live.index.batchLimit size - 1) changes)).exec
        { live with events } := by
  obtain ⟨events, hclamp⟩ := exec_clampBatch size live
  refine ⟨events, ?_⟩
  have hpos : (#[] : Array Change).size < live.index.batchLimit size := Nat.le_max_left 1 _
  rw [applyLines, exec_bind_ok hclamp, exec_applyFrom hlines hpos]
  rfl

/-- As many deletions as the index allows go into one batch. -/
theorem exec_deleteKeys (keys : List DocumentKey) (live : Live β σ) :
    (deleteKeys sink keys).exec live =
      (deleteParts sink (partsOf (live.index.batchLimit keys.length - 1) keys)).exec live := by
  rw [deleteKeys, exec_bind_ok (exec_get live)]

/-! ### When no call fails -/

section

variable [LawfulBackend β] {live : Live β σ} (hwilling : sink.Willing)
  (hsound : Sound live.env.log.backend)

include hwilling hsound

theorem exists_tally {parts : List (List Change)} (h : live.CarriesOut parts) {γ : Type}
    (f : BatchResult → γ) (events : Array Event) :
    ∃ answer live', (tally f sink parts).exec { live with events } = (.ok answer, live') := by
  obtain ⟨result, live', hrun⟩ := @exists_runBatches _ _ sink { live with events } _ _ hwilling
    hsound parts h
  exact ⟨_, live', exec_tally_of_ok hrun f⟩

theorem exists_applyLines {input : Bytes} {changes : List Change}
    (hlines : Change.ofLines 1 (Text.lines input) = .ok changes) {size : Nat}
    (h : live.CarriesOut (partsOf (live.index.batchLimit size - 1) changes)) :
    ∃ mapped live', (applyLines sink input size).exec live = (.ok mapped, live') := by
  obtain ⟨events, hexec⟩ := @exec_applyLines _ _ _ sink _ _ hlines size live
  rw [hexec]
  exact exists_tally hwilling hsound h _ events

theorem exists_deleteParts {parts : List (List DocumentKey)}
    (h : live.CarriesOut (parts.map (·.map .delete))) :
    ∃ counts live', (deleteParts sink parts).exec live = (.ok counts, live') := by
  rw [exec_deleteParts]
  exact exists_tally hwilling hsound h _ live.events

theorem exists_deleteKeys {keys : List DocumentKey}
    (h : live.CarriesOut
      ((partsOf (live.index.batchLimit keys.length - 1) keys).map (·.map .delete))) :
    ∃ counts live', (deleteKeys sink keys).exec live = (.ok counts, live') := by
  rw [exec_deleteKeys]
  exact exists_deleteParts hwilling hsound h

end

/-! ### Boundaries -/

variable {γ : Type} {live live₁ live₂ : Live β ResultStore}

/-- What is said about batches is the same for all ways of cutting, if it is not about how many
groups they reduced. -/
theorem tally_ends {f : BatchResult → γ} (hf : ∀ {a b}, a.SameButReduced b → f b = f a)
    {parts parts' : List (List Change)} (hparts : parts.flatten = parts'.flatten)
    {events events' : Array Event} {answer answer' : γ}
    (hrun : (tally f ResultStore.sink parts).exec { live with events } = (.ok answer, live₁))
    (hrun' : (tally f ResultStore.sink parts').exec { live with events := events' } =
      (.ok answer', live₂)) : answer' = answer ∧ SameEnd live₁ live₂ := by
  rw [tally, exec_adapt, exec_map] at hrun hrun'
  rcases hbatches : (runBatches ResultStore.sink parts).exec { live with events } with
    ⟨_ | result, end₁⟩ <;> rw [hbatches] at hrun <;> cases hrun
  rcases hbatches' : (runBatches ResultStore.sink parts').exec { live with events := events' } with
    ⟨_ | result', end₂⟩ <;> rw [hbatches'] at hrun' <;> cases hrun'
  obtain ⟨hsame, hend⟩ :=
    (Cut.refl live events).ends (Cut.refl live events') hparts hbatches hbatches'
  exact ⟨hf hsame, hend⟩

/-- **Batch boundaries are invisible.**  However changes are cut into batches, if all of them are
committed they come to the same trees, the same last etag and, where batches reduce, the same
results; and they did the same, but for how many groups they reduced: their etags are those right
behind the counter, one for each document in order.  The lines of an input are run as the batches
that their changes are cut into, and deletions as those that the keys are cut into.  So lines come
to the same in batches of every size, and deletions in whatever parts they are made. -/
theorem batch_boundaries_invisible (live : Live β ResultStore) :
    (∀ parts parts' : List (List Change), parts.flatten = parts'.flatten →
      ∀ result result' live₁ live₂,
        (runBatches ResultStore.sink parts).exec live = (.ok result, live₁) →
        (runBatches ResultStore.sink parts').exec live = (.ok result', live₂) →
          SameEnd live₁ live₂ ∧ result.SameButReduced result' ∧
            result.etags.map Etag.toNat =
              List.range' (live.index.lastEtag.toNat + 1)
                (parts.flatten.countP Change.isPut)) ∧
    (∀ input changes, Change.ofLines 1 (Text.lines input) = .ok changes →
      (∀ size, ∃ events, (applyLines ResultStore.sink input size).exec live =
        (tally BatchResult.mapped ResultStore.sink
          (partsOf (live.index.batchLimit size - 1) changes)).exec { live with events }) ∧
      ∀ size size' mapped mapped' live₁ live₂,
        (applyLines ResultStore.sink input size).exec live = (.ok mapped, live₁) →
        (applyLines ResultStore.sink input size').exec live = (.ok mapped', live₂) →
          SameEnd live₁ live₂ ∧ mapped' = mapped) ∧
    (∀ keys, (deleteKeys ResultStore.sink keys).exec live =
      (deleteParts ResultStore.sink
        (partsOf (live.index.batchLimit keys.length - 1) keys)).exec live) ∧
    (∀ parts, (deleteParts ResultStore.sink parts).exec live =
      (tally (fun r => (r.deleted, r.retracted)) ResultStore.sink
        (parts.map (·.map .delete))).exec live) ∧
    ∀ keys parts, parts.flatten = keys → ∀ counts counts' live₁ live₂,
      (deleteKeys ResultStore.sink keys).exec live = (.ok counts, live₁) →
      (deleteParts ResultStore.sink parts).exec live = (.ok counts', live₂) →
        SameEnd live₁ live₂ ∧ counts' = counts := by
  refine ⟨fun parts parts' hparts result result' live₁ live₂ hrun hrun' => ?_,
    fun input changes hlines => ⟨fun size => exec_applyLines hlines size live,
      fun size size' mapped mapped' live₁ live₂ hrun hrun' => ?_⟩,
    fun keys => exec_deleteKeys keys live, fun parts => exec_deleteParts parts live,
    fun keys parts hparts counts counts' live₁ live₂ hrun hrun' => ?_⟩
  · obtain ⟨hsame, hend⟩ :=
      (Cut.refl live live.events).ends (Cut.refl live live.events) hparts hrun hrun'
    exact ⟨hend, hsame, etags_of_runBatches hrun⟩
  · obtain ⟨events, hlines₁⟩ := @exec_applyLines _ _ _ ResultStore.sink _ _ hlines size live
    obtain ⟨events', hlines₂⟩ := @exec_applyLines _ _ _ ResultStore.sink _ _ hlines size' live
    rw [hlines₁] at hrun
    rw [hlines₂] at hrun'
    refine (tally_ends ?_ ?_ hrun hrun').symm
    · rintro a b ⟨_, rfl⟩
      rfl
    · rw [flatten_partsOf, flatten_partsOf]
  · rw [exec_deleteKeys, exec_deleteParts] at hrun
    rw [exec_deleteParts] at hrun'
    refine (@tally_ends _ _ _ live _ _ _ ?_ _ _ ?_ live.events live.events _ _ hrun hrun').symm
    · rintro a b ⟨_, rfl⟩
      rfl
    · rw [← List.map_flatten, ← List.map_flatten, flatten_partsOf, hparts]

end Live

/-- Two lines, of which the second takes back what the first one put. -/
def Change.twoLines : Bytes := Utf8.encode "[\"a\",1]\n[\"a\"]\n"

def Change.ofTwoLines : List Change := [.put ⟨[97], .integer 1⟩, .delete [97]]

theorem Change.ofLines_twoLines : ofLines 1 (Text.lines twoLines) = .ok ofTwoLines := by
  decide +kernel

/-- What a new index carries out, in two batches as well as in one. -/
theorem Index.carriesOut_two : ([[Change.ofTwoLines], Change.ofTwoLines.map ([·]),
    [[.delete [97], .delete [98]]], [[.delete [97]], [.delete [98]]]].all
      (carriesOut ⟨minimal, {}, .zero, {}⟩ minimalTrees .zero)) = true := by
  decide +kernel

namespace Live

theorem batch_boundaries_invisible_of_two :
    ∃ ix host', (Index.create Index.minimal {}).exec ⟨.fresh (Memory.mk []), #[]⟩ =
        (.ok ix, host') ∧
      let live := ofHost host' ix ResultStore.empty
      (∃ result result' live₁ live₂,
        (runBatches ResultStore.sink [Change.ofTwoLines]).exec live = (.ok result, live₁) ∧
        (runBatches ResultStore.sink (Change.ofTwoLines.map ([·]))).exec live =
          (.ok result', live₂) ∧ SameEnd live₁ live₂ ∧ result.SameButReduced result') ∧
      (∃ mapped live₁ live₂,
        (applyLines ResultStore.sink Change.twoLines 2).exec live = (.ok mapped, live₁) ∧
        (applyLines ResultStore.sink Change.twoLines 1).exec live = (.ok mapped, live₂) ∧
          SameEnd live₁ live₂) ∧
      ∃ counts live₁ live₂,
        (deleteKeys ResultStore.sink [[97], [98]]).exec live = (.ok counts, live₁) ∧
        (deleteParts ResultStore.sink [[[97]], [[98]]]).exec live = (.ok counts, live₂) ∧
          SameEnd live₁ live₂ := by
  obtain ⟨host', hcreate⟩ := Index.exec_create_minimal {}
  refine ⟨_, host', hcreate, ?_⟩
  have hall := Index.carriesOut_two
  have hwilling := ResultStore.willing_sink
  -- only this is needed of the new index
  have hindex : (ofHost host' (⟨Index.minimal, {}, .zero, {}⟩ : Index) ResultStore.empty).index =
      ⟨Index.minimal, {}, .zero, {}⟩ := rfl
  have hcommitted : (ofHost host' (⟨Index.minimal, {}, .zero, {}⟩ : Index)
      ResultStore.empty).committed = Index.minimalTrees :=
    Index.committed_of_create_minimal hcreate
  generalize ofHost host' (⟨Index.minimal, {}, .zero, {}⟩ : Index) ResultStore.empty = live
    at hindex hcommitted ⊢
  obtain ⟨hone, htwo, hdeletion, hdeletions⟩ : live.CarriesOut [Change.ofTwoLines] ∧
      live.CarriesOut (Change.ofTwoLines.map ([·])) ∧
      live.CarriesOut [[.delete [97], .delete [98]]] ∧
      live.CarriesOut [[.delete [97]], [.delete [98]]] := by
    simp only [CarriesOut, hindex, hcommitted]
    simpa only [List.all_cons, List.all_nil, Bool.and_eq_true, Bool.and_true] using hall
  have hbatches := fun parts h => @exists_runBatches _ _ _ live _ _ hwilling trivial parts h
  obtain ⟨hputs, hlines, -, -, hkeys⟩ := batch_boundaries_invisible live
  refine ⟨?_, ?_, ?_⟩
  · obtain ⟨result, live₁, h₁⟩ := hbatches _ hone
    obtain ⟨result', live₂, h₂⟩ := hbatches _ htwo
    obtain ⟨hend, hsame, -⟩ := hputs _ _ (by simp [Change.ofTwoLines]) _ _ _ _ h₁ h₂
    exact ⟨result, result', live₁, live₂, h₁, h₂, hend, hsame⟩
  · have hlimit : partsOf (live.index.batchLimit 2 - 1) Change.ofTwoLines =
        [Change.ofTwoLines] := by
      rw [hindex]
      exact partsOf_of_length_le (by simp [Change.ofTwoLines])
        (by simp [Change.ofTwoLines, Index.batchLimit])
    have hlimit' : partsOf (live.index.batchLimit 1 - 1) Change.ofTwoLines =
        Change.ofTwoLines.map ([·]) := by
      rw [hindex]
      simp [Change.ofTwoLines, partsOf, Index.batchLimit]
    obtain ⟨mapped, live₁, h₁⟩ := exists_applyLines hwilling trivial Change.ofLines_twoLines
      (hlimit ▸ hone)
    obtain ⟨mapped', live₂, h₂⟩ := exists_applyLines hwilling trivial Change.ofLines_twoLines
      (hlimit' ▸ htwo)
    obtain ⟨hend, rfl⟩ := (hlines _ _ Change.ofLines_twoLines).2 _ _ _ _ _ _ h₁ h₂
    exact ⟨mapped', live₁, live₂, h₁, h₂, hend⟩
  · have hlimit : (partsOf (live.index.batchLimit 2 - 1) ([[97], [98]] : List DocumentKey)).map
        (·.map Change.delete) = [[.delete [97], .delete [98]]] := by
      rw [hindex, partsOf_of_length_le (by simp) (by simp [Index.batchLimit])]
      rfl
    obtain ⟨counts, live₁, h₁⟩ := @exists_deleteKeys _ _ _ _ _ live hwilling trivial
      [[97], [98]] (hlimit ▸ hdeletion)
    obtain ⟨counts', live₂, h₂⟩ := @exists_deleteParts _ _ _ _ _ live hwilling trivial
      [[[97]], [[98]]] hdeletions
    obtain ⟨hend, hcounts⟩ :=
      hkeys [[97], [98]] [[[97]], [[98]]] rfl counts counts' live₁ live₂ h₁ h₂
    exact ⟨counts, live₁, live₂, h₁, hcounts ▸ h₂, hend⟩

end Live

end Rollup
